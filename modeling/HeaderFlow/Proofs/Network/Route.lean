import HeaderFlow.Proofs.Network.Mutation

/-!
# Which headers reach a node

What the flows should say can be said without them. A *route* leads from a source along links from
node to node, and a header takes it if every node on it accepts the header and no rule of higher
priority gets it instead. What an overwriting rule makes of a header goes on in its place.

In a network at rest a flow follows every route that some header takes, and has that header: **no
header that arrives is missed**, as long as rules overwrite what can be said exactly
(`exists_follows`). Without overwriting **there is nothing else in the flows** (`Follows.trace`), so
flows are exact (`reaches_iff`).

## Routes

A route is a list of legs, the latest first, and says nothing of headers: it goes along links,
enters nodes by ports that they have, leaves a rule by any of its ports but the one it came in by,
and does not pass the same place twice. These are the rules by which the engine sends flows, said of
nodes and links only.

`Trace space legs y` is about headers on a route: `y` can leave the last node. With an overwriting
rule a header turns into another one on the way, so a trace is a statement about pairs of headers,
one pair for each leg.

## The two directions

* From a trace to a flow: `exists_brings`, by induction on the route. The flow at the end of each
  leg is the one that came by the pipe of the leg, and no debt stands in the way because nothing is
  owed at rest. Overwriting is exact only where masks are concrete and holes are shallow, which is
  why these are conditions of the theorem.
* From a flow to a trace: `Follows.trace`, by induction on the way of the flow, where nothing is
  overwritten.
-/

namespace HeaderFlow

open Region

/-- Headers leave the last node by a port and enter the next one by another. -/
structure Leg where
  outPort : Port
  node : Node
  inPort : Port

namespace Node

/-- The header matches the pattern of the node. -/
def Accepts (n : Node) (x : Nat → Bool) : Prop := ∃ p, n.accepts = some p ∧ p.Matches x

/-- What the node overwrites, if it is a rule that does. -/
def overwrite? (n : Node) : Option Overwrite := n.rule?.bind Rule.overwrite

/-- The header `x` can leave the node as `y`. -/
def Turns (n : Node) (x y : Nat → Bool) : Prop :=
  match n.overwrite? with
  | some w => w.mask.Turns w.value x y
  | none => y = x

end Node

namespace Network

variable {net : Network} {s n : Node} {legs : List Leg} {h : Handle} {f : Flow} {x y : Nat → Bool}
  {space : Space} {spaces : NodeKey → Option Space}

/-! ### Routes -/

/-- A rule of higher priority in the same table matches the header and takes it in by the port. -/
def Outranked (net : Network) (n : Node) (port : Port) (x : Nat → Bool) : Prop :=
  ∃ r, n.rule? = some r ∧ ∃ m ∈ net.nodes, ∃ r', m.rule? = some r' ∧ r'.table = r.table ∧
    r'.index < r.index ∧ port ∈ m.inPorts.toList ∧ m.Accepts x

/-- What counts as one place when loops are looked for. -/
def loopKey (net : Network) (n : Node) : UInt64 := n.id &&& net.settings.loopDetection.keyMask

/-- The node to which the legs lead. -/
def stop (s : Node) : List Leg → Node
  | [] => s
  | leg :: _ => leg.node

/-- Headers can go on from there by a port: from a source by any of its ports, from a rule **by all
but the one they came in by**. -/
def Exits (s : Node) (q : Port) : List Leg → Prop
  | [] => q ∈ s.outPorts.toList
  | leg :: _ => leg.node.type = .rule ∧ q ∈ leg.node.outPorts.toList ∧ q ≠ leg.inPort

/-- A way through the network from the source `s`, with the latest leg first. It does not pass the
same place twice. -/
inductive Route (net : Network) (s : Node) : List Leg → Prop
  | start : s ∈ net.nodes → s.type = .source → Route net s []
  | leg {legs : List Leg} {q p : Port} {n : Node} :
    Route net s legs → Exits s q legs → n ∈ net.nodes → n.type ≠ .source → p ∈ n.inPorts.toList →
      ⟨q, p⟩ ∈ net.links →
      (n.type = .rule → ∀ l ∈ legs, net.loopKey l.node ≠ net.loopKey n) →
      Route net s (⟨q, n, p⟩ :: legs)

/-- The flow came along the legs: through these nodes, by these ports and by pipes between them. -/
inductive Follows (net : Network) (s : Node) : Handle → List Leg → Prop
  | source {h : Handle} {f : Flow} :
    net.flows.find? h = some f → f.parent = none → f.node = s.key → Follows net s h []
  | leg {h p fwd : Handle} {f : Flow} {legs : List Leg} {n : Node} {a b : Pipe} :
    net.flows.find? h = some f → f.parent = some p → f.node = n.key → f.pipe = some fwd →
      net.pipes.find? fwd = some a → net.pipes.find? a.reverse = some b →
      a.node = (stop s legs).key → b.node = n.key → b.port = f.port → Follows net s p legs →
      Follows net s h (⟨a.port, n, f.port⟩ :: legs)

/-- The header `y` can leave the last node after taking the legs from a source of the space. At each
node, the header that enters is one that the node accepts and that no other rule gets. -/
inductive Trace (net : Network) (space : Space) : List Leg → (Nat → Bool) → Prop
  | source {x : Nat → Bool} : space.Contains x → Trace net space [] x
  | leg {leg : Leg} {legs : List Leg} {x y : Nat → Bool} :
    Trace net space legs x → leg.node.Accepts x → ¬ net.Outranked leg.node leg.inPort x →
      leg.node.Turns x y → Trace net space (leg :: legs) y

/-! ### Nodes and the layout -/

theorem overwrite?_layout (hn : net.layout.core? n.key = some n.core) :
    net.layout.overwrite? n.key = n.overwrite? := by
  rw [Layout.overwrite?, hn, Node.overwrite?, Node.rule?]
  cases hrole : n.role <;> simp [Node.core, Role.kind, hrole]

/-- What a node makes of a header is what the layout says. -/
theorem turns_layout (hn : net.layout.core? n.key = some n.core) :
    net.layout.Turns n.key x y ↔ n.Turns x y := by
  cases hw : n.overwrite? with
  | none => simp only [Layout.Turns, Node.Turns, overwrite?_layout hn, hw]
  | some w => simp only [Layout.Turns, Node.Turns, overwrite?_layout hn, hw]

/-- Only rules count as places. -/
theorem loopKey?_layout (hn : net.layout.core? n.key = some n.core) :
    net.layout.loopKey? n.key = if n.type = .rule then some (net.loopKey n) else none := by
  rw [Layout.loopKey?, hn, Node.type]
  cases hrole : n.role <;> simp [Node.core, Role.kind, hrole, loopKey, layout]

/-- **A header is taken from a rule when another one outranks it.** -/
theorem taken_iff {port : Port} (hrest : AtRest net) (hn : n ∈ net.nodes)
    (hport : port ∈ n.inPorts.toList) (hx : n.Accepts x) :
    net.layout.Taken n.key port x ↔ net.Outranked n port x := by
  have hcore := core?_core hrest.inv.layout.nodup hn
  constructor
  · rintro ⟨-, k, hk, i, hi, hports, hcommon⟩
    obtain ⟨i', hi', hinfluenced, hranks⟩ := hrest.ordered.lost n.key k hk
    obtain rfl := Option.some.inj (hi.symm.trans hi')
    obtain ⟨m, n', hr⟩ := hranks (Set.notMem_empty k)
    obtain rfl : n.core = n' := Option.some.inj (hcore.symm.trans (hinfluenced ▸ hr.influenced))
    obtain ⟨table, place, place', w, w', hkm, hkn, hlt⟩ := hr.order
    obtain ⟨p, q, hp, hq, hboth⟩ := hr.common
    obtain ⟨m, hm, rfl⟩ := List.mem_map.1 (Layout.mem_of_core? hr.influencer)
    obtain ⟨r', hr', htable', hindex'⟩ := rule?_of_kind hkm
    obtain ⟨r, hrule, htable, hindex⟩ := rule?_of_kind hkn
    exact ⟨r, hrule, m, hm, r', hr', htable'.trans htable.symm, hindex' ▸ hindex ▸ hlt,
      ((hr.ports port).1 hports).1, p, hp, ((hboth x).1 hcommon).1⟩
  · rintro ⟨r, hrule, m, hm, r', hr', htable, hlt, hport', q, hq, hqx⟩
    obtain ⟨p, hp, hpx⟩ := hx
    have hkn := kind_of_rule? hrule
    have hkm := kind_of_rule? hr'
    rw [htable] at hkm
    obtain ⟨k, hk, i, hi, hinfluencer⟩ := hrest.ranked n.core (List.mem_map_of_mem hn) m.core
      (List.mem_map_of_mem hm) _ _ _ _ _ hkn hkm hlt (fun he ↦ he) port hport hport' p q x hp hq
      hpx hqx
    obtain ⟨i', hi', hinfluenced, hranks⟩ := hrest.ordered.lost n.key k hk
    obtain rfl := Option.some.inj (hi.symm.trans hi')
    obtain ⟨m', n', hr⟩ := hranks (Set.notMem_empty k)
    obtain rfl : n.core = n' := Option.some.inj (hcore.symm.trans (hinfluenced ▸ hr.influenced))
    obtain rfl : m.core = m' := by
      refine Option.some.inj ((core?_core hrest.inv.layout.nodup hm).symm.trans ?_)
      rw [← hr.influencer, hinfluencer]
      rfl
    obtain ⟨q', p', hq', hp', hboth⟩ := hr.common
    obtain rfl := Option.some.inj (hq.symm.trans hq')
    obtain rfl := Option.some.inj (hp.symm.trans hp')
    exact ⟨⟨n.core, hcore, _, _, _, hkn⟩, k, hk, i, hi, (hr.ports port).2 ⟨hport', hport⟩,
      (hboth x).2 ⟨hqx, hpx⟩⟩

/-! ### Flows along a route -/

/-- The nodes of a route are there, and its legs enter by ports that the nodes have. -/
theorem Route.mem (hr : net.Route s legs) : stop s legs ∈ net.nodes ∧ s ∈ net.nodes ∧
    s.type = .source ∧ ∀ l ∈ legs, l.node ∈ net.nodes ∧ l.inPort ∈ l.node.inPorts.toList := by
  induction hr with
  | start hs htype => exact ⟨hs, hs, htype, by rintro l ⟨⟩⟩
  | leg _ _ hn _ hp _ _ ih =>
    exact ⟨hn, ih.2.1, ih.2.2.1, List.forall_mem_cons.2 ⟨⟨hn, hp⟩, ih.2.2.2⟩⟩

/-- A flow that follows a route is at its end. -/
theorem Follows.live (hf : net.Follows s h legs) :
    ∃ f, net.flows.find? h = some f ∧ f.node = (stop s legs).key := by
  cases hf with
  | source hf _ hnode => exact ⟨_, hf, hnode⟩
  | leg hf _ hnode => exact ⟨_, hf, hnode⟩

/-- The flow's tree grows from the source of its route. -/
theorem Follows.root {O : Set Handle} (hf : net.Follows s h legs)
    (hF : Forest net.layout net.flows O) (hlive : net.flows.find? h = some f) :
    ∃ r, net.flows.find? f.source = some r ∧ r.parent = none ∧ r.node = s.key := by
  induction hf generalizing f with
  | source hf hp hnode =>
    obtain rfl := Option.some.inj (hlive.symm.trans hf)
    obtain ⟨hsource, -⟩ := hF.root _ _ hf hp
    exact ⟨f, hsource ▸ hf, hp, hnode⟩
  | leg hf hp _ _ _ _ _ _ _ hup ih =>
    obtain rfl := Option.some.inj (hlive.symm.trans hf)
    obtain ⟨g, hg⟩ := hF.parent_live hf hp
    rw [(hF.came _ _ _ _ hf hp hg).1]
    exact ih hg

/-- A place that is met on the way up is one on the route. -/
theorem Follows.of_meets {key : UInt64} (hf : net.Follows s h legs) (hrest : AtRest net)
    (hr : net.Route s legs) (hm : Meets net.layout net.flows key (some h)) :
    ∃ l ∈ legs, net.loopKey l.node = key := by
  have hnodup := hrest.inv.layout.nodup
  induction hf with
  | source hf hp hnode =>
    obtain ⟨-, hs, htype, -⟩ := hr.mem
    cases hm with
    | here hf' hkey =>
      obtain rfl := Option.some.inj (hf.symm.trans hf')
      rw [hnode, loopKey?_layout (core?_core hnodup hs), if_neg (by simp [htype])] at hkey
      exact absurd hkey (by simp)
    | above hf' hm =>
      obtain rfl := Option.some.inj (hf.symm.trans hf')
      rw [hp] at hm
      cases hm
  | leg hf hp hnode _ _ _ _ _ _ _ ih =>
    cases hr with
    | leg hr _ hn =>
      cases hm with
      | here hf' hkey =>
        obtain rfl := Option.some.inj (hf.symm.trans hf')
        rw [hnode, loopKey?_layout (core?_core hnodup hn)] at hkey
        split at hkey
        · exact ⟨_, List.mem_cons_self, Option.some.inj hkey⟩
        · exact absurd hkey (by simp)
      | above hf' hm =>
        obtain rfl := Option.some.inj (hf.symm.trans hf')
        obtain ⟨l, hl, hkey⟩ := ih hr (hp ▸ hm)
        exact ⟨l, List.mem_cons_of_mem _ hl, hkey⟩

/-- A flow that follows a route is at no place for the second time. -/
theorem Follows.looped_eq_false (hfollows : net.Follows s h legs) (hrest : AtRest net)
    (hr : net.Route s legs) (hf : net.flows.find? h = some f) : f.looped = false := by
  by_contra hlooped
  obtain ⟨key, hkey, hmeets⟩ := hrest.inv.forest.looped h f hf (by simpa using hlooped)
  cases hfollows with
  | source hf' hp _ =>
    obtain rfl := Option.some.inj (hf.symm.trans hf')
    rw [hp] at hmeets
    cases hmeets
  | leg hf' hp hnode _ _ _ _ _ _ hup =>
    obtain rfl := Option.some.inj (hf.symm.trans hf')
    cases hr with
    | leg hroute _ hn _ _ _ hfresh =>
      rw [hnode, loopKey?_layout (core?_core hrest.inv.layout.nodup hn)] at hkey
      split at hkey
      · obtain ⟨l, hl, hsame⟩ := hup.of_meets hrest hroute (hp ▸ hmeets)
        exact hfresh ‹_› l hl (hsame.trans (Option.some.inj hkey).symm)
      · exact absurd hkey (by simp)

/-- What an accepted header turns into can be sent. -/
theorem matches_sends (hproper : n.core.Proper) (htype : n.type = .rule) (hx : n.Accepts x)
    (hxy : n.Turns x y) (hmask : ∀ w, n.overwrite? = some w → w.mask.Concrete) :
    n.sends.Matches y := by
  obtain ⟨p, hp, hpx⟩ := hx
  cases hrole : n.role with
  | rule r =>
    simp only [Core.Proper, Node.core, Role.kind, hrole] at hproper
    obtain ⟨-, -, p', hp', hsends⟩ := hproper
    obtain rfl := Option.some.inj (hp.symm.trans hp')
    simp only [Node.Turns, Node.overwrite?, Node.rule?, hrole, Option.bind] at hxy hmask
    cases ho : r.overwrite with
    | none =>
      simp only [ho] at hxy hsends
      exact hxy ▸ hsends x hpx
    | some w =>
      simp only [ho] at hxy hsends
      exact hsends (hmask w ho) x y hpx hxy
  | source => simp [Node.type, hrole] at htype
  | probe p => simp [Node.type, hrole] at htype

/-- Any header may be sent by a source. -/
theorem matches_sends_of_source (hproper : n.core.Proper) (htype : n.type = .source) :
    n.sends.Matches x := by
  cases hrole : n.role with
  | rule r => simp [Node.type, hrole] at htype
  | source =>
    simp only [Core.Proper, Node.core, Role.kind, hrole] at hproper
    exact hproper.2.2 x
  | probe p => simp [Node.type, hrole] at htype

/-- The flow followed the route and has the header. It may leave by every exit of the route, and the
last node can send the header. -/
structure Brings (net : Network) (s : Node) (legs : List Leg) (y : Nat → Bool) (h : Handle)
    (f : Flow) : Prop where
  follows : net.Follows s h legs
  live : net.flows.find? h = some f
  sends : f.Sends y
  leaves : ∀ q, Exits s q legs →
    f.Leaves q ∧ q ∈ (stop s legs).outPorts.toList ∧ (stop s legs).sends.Matches y

/-- **A flow goes on along a link**: the header comes in at each node that accepts it. -/
theorem Brings.exists_input {q p : Port} (hb : net.Brings s legs x h f) (hrest : AtRest net)
    (hroute : net.Route s legs) (hexit : Exits s q legs) (hn : n ∈ net.nodes)
    (hport : p ∈ n.inPorts.toList) (hlink : ⟨q, p⟩ ∈ net.links) (hx : n.Accepts x) :
    ∃ c g, net.Follows s c (⟨q, n, p⟩ :: legs) ∧ net.flows.find? c = some g ∧ g.parent = some h ∧
      g.node = n.key ∧ g.port = p ∧ g.input.Contains x := by
  obtain ⟨hI, -, hwired, -⟩ := id hrest
  obtain ⟨hleaves, hout, hmatch⟩ := hb.leaves q hexit
  obtain ⟨f', hf', hnode⟩ := hb.follows.live
  obtain rfl := Option.some.inj (hb.live.symm.trans hf')
  obtain ⟨a, ha, hax⟩ := hx
  -- the pipe is there, with the header in its pattern
  obtain ⟨fwd, w, hw, hsender, houtPort, hreceiver, hinPort⟩ := hwired (stop s legs).core
    (List.mem_map_of_mem hroute.mem.1) n.core (List.mem_map_of_mem hn) q hout p hport hlink
    (fun he ↦ he) a x ha hax hmatch
  have hpattern : w.pattern.Matches x := by
    obtain ⟨m, m', p', hm, hm', -, -, -, hp', hboth⟩ := hI.layout.ends hw
    rw [hsender] at hm
    rw [hreceiver] at hm'
    obtain rfl := Option.some.inj ((core?_core hI.layout.nodup hroute.mem.1).symm.trans hm)
    obtain rfl := Option.some.inj ((core?_core hI.layout.nodup hn).symm.trans hm')
    obtain rfl := Option.some.inj (ha.symm.trans hp')
    exact (hboth x).2 ⟨hax, hmatch⟩
  -- so the flow went down it
  obtain ⟨c, g, hc, hparent, hpipe⟩ := (hI.sound.sent h f hb.live fwd w hw
    (hsender.trans hnode.symm) (houtPort ▸ hleaves) (Set.notMem_empty _)).resolve_right
    fun hnone ↦ hnone x hb.sends hpattern
  obtain ⟨-, fwd', w', hpipe', hw', -, hgnode, hgport⟩ := hI.forest.came c g h f hc hparent hb.live
  obtain rfl := Option.some.inj (hpipe.symm.trans hpipe')
  obtain rfl := hw.unique hw'
  have hgkey : g.node = n.key := hgnode.symm.trans hreceiver
  have hgin : g.port = p := hgport.symm.trans hinPort
  refine ⟨c, g, ?_, hc, hparent, hgkey, hgin,
    ((hI.sound.passes c g h f fwd w hc hparent hb.live hpipe hw).input_iff x).2
      ⟨hpattern, hb.sends⟩⟩
  obtain ⟨side, back, hside, hback, -, rfl⟩ := hw
  exact houtPort ▸ hgin ▸ .leg hc hparent hgkey hpipe hside hback hsender hreceiver hgport
    hb.follows

/-- **A flow sends what comes in**, as the node turns it, unless another rule gets it. -/
theorem Follows.sends {q p : Port} (hfollows : net.Follows s h (⟨q, n, p⟩ :: legs))
    (hrest : AtRest net) (hrooted : Rooted net spaces) (hr : net.Route s (⟨q, n, p⟩ :: legs))
    (hspace : spaces s.key = some space)
    (hgood : ∀ w, n.overwrite? = some w → w.mask.Concrete ∧ heightList space.regions ≤ 2)
    (hf : net.flows.find? h = some f) (hnode : f.node = n.key) (hport : f.port = p)
    (hinput : f.input.Contains x) (hx : n.Accepts x) (hfree : ¬ net.Outranked n p x)
    (hturns : n.Turns x y) : f.Sends y := by
  have hI := hrest.inv
  have hn : n ∈ net.nodes := hr.mem.1
  have hin : p ∈ n.inPorts.toList := (hr.mem.2.2.2 _ List.mem_cons_self).2
  have hcore := core?_core hI.layout.nodup hn
  refine (hI.sound.fits h f hf).lower (hfollows.looped_eq_false hrest hr hf) (Set.notMem_empty _)
    (fun o ho ↦ ?_) x y hinput ?_ ?_
  · rw [hnode, overwrite?_layout hcore] at ho
    obtain ⟨hmask, hheight⟩ := hgood o ho
    obtain ⟨r, hroot, hrp, hrnode⟩ := hfollows.root hI.forest hf
    have hsame := (hrooted.input_alike hspace hroot hrp hrnode).2
    have hle := (hI.height hf hroot hrp).1
    exact ⟨hmask, by omega⟩
  · rw [hnode, hport, taken_iff hrest hn hin hx]
    exact hfree
  · rw [hnode, turns_layout hcore]
    exact hturns

/-- Every header that takes a route is brought along it. -/
theorem exists_brings (hrest : AtRest net) (hrooted : Rooted net spaces) (hr : net.Route s legs)
    (hspace : spaces s.key = some space)
    (hgood : ∀ n ∈ net.nodes, ∀ w, n.overwrite? = some w →
      w.mask.Concrete ∧ heightList space.regions ≤ 2)
    (ht : net.Trace space legs y) : ∃ h f, net.Brings s legs y h f := by
  have hproper := hrest.inv.layout.proper
  induction hr generalizing y with
  | start hs htype =>
    obtain ⟨hx⟩ := ht
    obtain ⟨h, f, hf, hp, hnode⟩ :=
      hrooted.source s.core (List.mem_map_of_mem hs) (Node.type_eq_source_iff.1 htype)
    have hinput := ((hrooted.input_alike hspace hf hp hnode).1 y).2 hx
    exact ⟨h, f, .source hf hp hnode, hf,
      ⟨f.input, (hrest.inv.sound.source h f hf hp).1, hinput⟩, fun q hq ↦
      ⟨.inl hp, hq, matches_sends_of_source (hproper _ (List.mem_map_of_mem hs)) htype⟩⟩
  | @leg legs q p n hroute hexit hn htype hport hlink hloop ih =>
    cases ht with
    | @leg _ _ x _ htrace hx hfree hturns =>
      obtain ⟨h, f, hb⟩ := ih htrace
      obtain ⟨c, g, hfollows, hg, -, hnode, hgport, hinput⟩ :=
        hb.exists_input hrest hroute hexit hn hport hlink hx
      have hsends : g.Sends y :=
        hfollows.sends hrest hrooted (.leg hroute hexit hn htype hport hlink hloop) hspace
          (hgood n hn) hg hnode hgport hinput hx hfree hturns
      refine ⟨c, g, hfollows, hg, hsends, fun q' ⟨hrule, hout, hne⟩ ↦
        ⟨.inr (hgport ▸ hne), hout, ?_⟩⟩
      exact matches_sends (hproper _ (List.mem_map_of_mem hn)) hrule hx hturns
        fun o ho ↦ (hgood n hn o ho).1

/-- **Every header that takes a route is in a flow that follows it.** -/
theorem exists_follows (hrest : AtRest net) (hrooted : Rooted net spaces) (hr : net.Route s legs)
    (hspace : spaces s.key = some space)
    (hgood : ∀ n ∈ net.nodes, ∀ w, n.overwrite? = some w →
      w.mask.Concrete ∧ heightList space.regions ≤ 2)
    (ht : net.Trace space legs y) :
    ∃ h f, net.Follows s h legs ∧ net.flows.find? h = some f ∧ f.Sends y := by
  obtain ⟨h, f, hb⟩ := exists_brings hrest hrooted hr hspace hgood ht
  exact ⟨h, f, hb.follows, hb.live, hb.sends⟩

/-- **Without overwriting, every header in a flow took its route.** -/
theorem Follows.trace (hfollows : net.Follows s h legs) (hrest : AtRest net)
    (hrooted : Rooted net spaces) (hr : net.Route s legs) (hspace : spaces s.key = some space)
    (hplain : ∀ n ∈ net.nodes, n.overwrite? = none) (hf : net.flows.find? h = some f)
    (hx : f.Sends x) : net.Trace space legs x := by
  have hI := hrest.inv
  induction hfollows generalizing f with
  | @source h f' hf' hp hnode =>
    obtain rfl := Option.some.inj (hf.symm.trans hf')
    obtain ⟨sent, hsent, hxs⟩ := hx
    obtain rfl := Option.some.inj ((hI.sound.source h f hf hp).1.symm.trans hsent)
    exact .source (((hrooted.input_alike hspace hf hp hnode).1 x).1 hxs)
  | @leg h p fwd f' legs n a b hf' hp hnode hpipe ha hb hanode hbnode hbport hup ih =>
    obtain rfl := Option.some.inj (hf.symm.trans hf')
    cases hr with
    | leg hroute _ hn _ hport _ _ =>
      have hcore := core?_core hI.layout.nodup hn
      have hover : net.layout.overwrite? f.node = none := by
        rw [hnode, overwrite?_layout hcore, hplain n hn]
      obtain ⟨hinput, hfree⟩ := ((hI.sound.fits h f hf).upper (Set.notMem_empty _) hover x
        hx).resolve_right (Set.notMem_empty _)
      obtain ⟨g, fwd', w, hg, hpipe', hw, -, hreceiver, -⟩ := hI.forest.wire hf hp
      obtain rfl := Option.some.inj (hpipe.symm.trans hpipe')
      obtain ⟨hpattern, hsends⟩ :=
        ((hI.sound.passes h f p g fwd w hf hp hg hpipe hw).input_iff x).1 hinput
      have haccepts : n.Accepts x := by
        obtain ⟨_, m, q, -, hm, -, -, -, hq, hboth⟩ := hI.layout.ends hw
        obtain rfl : n.core = m := Option.some.inj (hcore.symm.trans (hnode ▸ hreceiver ▸ hm))
        exact ⟨q, hq, ((hboth x).1 hpattern).1⟩
      refine .leg (ih hroute hg hsends) haccepts ?_ ?_
      · rw [← taken_iff hrest hn hport haccepts, ← hnode]
        exact hfree
      · rw [Node.Turns, hplain n hn]

/-- Without overwriting a header takes a route as it is. -/
theorem trace_iff_of_plain (hplain : ∀ n ∈ net.nodes, n.overwrite? = none)
    (hr : net.Route s legs) : net.Trace space legs x ↔ space.Contains x ∧
      ∀ l ∈ legs, l.node.Accepts x ∧ ¬ net.Outranked l.node l.inPort x := by
  induction hr with
  | start =>
    constructor
    · rintro ⟨hx⟩
      exact ⟨hx, by rintro l ⟨⟩⟩
    · exact fun hx ↦ .source hx.1
  | @leg legs q p n _ _ hn _ _ _ _ ih =>
    rw [List.forall_mem_cons]
    constructor
    · rintro (_ | ⟨ht, haccepts, hfree, hturns⟩)
      rw [Node.Turns, hplain n hn] at hturns
      obtain rfl := hturns
      obtain ⟨hx, hrest⟩ := ih.1 ht
      exact ⟨hx, ⟨haccepts, hfree⟩, hrest⟩
    · rintro ⟨hx, ⟨haccepts, hfree⟩, hrest⟩
      exact .leg (ih.2 ⟨hx, hrest⟩) haccepts hfree (by rw [Node.Turns, hplain n hn])

/-- The source has a space. -/
theorem Route.exists_space (hr : net.Route s legs) (hrooted : Rooted net spaces) :
    ∃ space, spaces s.key = some space := by
  obtain ⟨-, hs, htype, -⟩ := hr.mem
  obtain ⟨h, f, hf, hp, hnode⟩ :=
    hrooted.source s.core (List.mem_map_of_mem hs) (Node.type_eq_source_iff.1 htype)
  obtain ⟨space, hspace, -⟩ := hrooted.root h f hf hp
  rw [hnode] at hspace
  exact ⟨space, hspace⟩

/-! ### What is reached -/

/-- **Flows are exact where nothing is overwritten.** A header is in a flow that followed a route
just if the source sends it, every node on the route accepts it, and no rule of higher priority gets
it on the way. -/
theorem reaches_iff (hr : Reached net spaces) (hplain : ∀ n ∈ net.nodes, n.overwrite? = none)
    (hroute : net.Route s legs) : ∃ space, spaces s.key = some space ∧ ∀ x,
      (∃ h f, net.Follows s h legs ∧ net.flows.find? h = some f ∧ f.Sends x) ↔
        space.Contains x ∧ ∀ l ∈ legs, l.node.Accepts x ∧ ¬ net.Outranked l.node l.inPort x := by
  obtain ⟨hrest, hrooted⟩ := hr.atRest
  obtain ⟨space, hspace⟩ := hroute.exists_space hrooted
  refine ⟨space, hspace, fun x ↦ ?_⟩
  rw [← trace_iff_of_plain hplain hroute]
  constructor
  · rintro ⟨h, f, hfollows, hf, hx⟩
    exact hfollows.trace hrest hrooted hroute hspace hplain hf hx
  · refine exists_follows hrest hrooted hroute hspace fun n hn w hw ↦ ?_
    exact absurd ((hplain n hn).symm.trans hw) (by simp)

/-- A source of all headers before a table with two rules. The first takes the headers that start
with a `1`, and the second may overwrite. -/
def sampleChanges (mask value : Option Pattern) : List Mutation :=
  [.addTable 1 [11, 12], .addLink ⟨1, 11⟩,
    .addRule { table := 1, index := 1, inPorts := [11], outPorts := []
               accepts := (Pattern.allWild 1).put 0 .one },
    .addRule { table := 1, index := 2, inPorts := [11], outPorts := [12], accepts := .allWild 1
               mask := mask, value := value },
    .addSourcePattern (.allWild 1) [1]]

/-- The sample with rules that forward headers as they are. -/
def plainSample : Network × (NodeKey → Option Space) :=
  (replay (sampleChanges none none) (.new 1 .default, fun _ ↦ none)).get (by decide +kernel)

/-- The headers of the source that the second rule gets are those that the first does not take. -/
theorem reaches_iff_plainSample : ∃ s n, plainSample.1.Route s [⟨1, n, 11⟩] ∧
    ∃ space, plainSample.2 s.key = some space ∧ ∀ x,
      (∃ h f, plainSample.1.Follows s h [⟨1, n, 11⟩] ∧ plainSample.1.flows.find? h = some f ∧
        f.Sends x) ↔
        space.Contains x ∧ ∀ l ∈ [Leg.mk 1 n 11], l.node.Accepts x ∧
          ¬ plainSample.1.Outranked l.node l.inPort x := by
  have hreached : Reached plainSample.1 plainSample.2 :=
    (Reached.new 1 .default).replay (Option.some_get _).symm
  have hplain : ∀ n ∈ plainSample.1.nodes, n.overwrite? = none := by decide +kernel
  obtain ⟨s, hs, htype, hout⟩ : ∃ s ∈ plainSample.1.nodes, s.type = .source ∧
      1 ∈ s.outPorts.toList := by decide +kernel
  obtain ⟨n, hn, htype', hin⟩ : ∃ n ∈ plainSample.1.nodes, n.type ≠ .source ∧
      11 ∈ n.inPorts.toList := by decide +kernel
  have hlink : ⟨1, 11⟩ ∈ plainSample.1.links := by decide +kernel
  have hroute : plainSample.1.Route s [⟨1, n, 11⟩] :=
    .leg (.start hs htype) hout hn htype' hin hlink (by rintro - l ⟨⟩)
  exact ⟨s, n, hroute, reaches_iff hreached hplain hroute⟩

/-- **No header that arrives is missed.** Where masks are concrete and the holes of sources are not
nested, the header at the end of a trace along a route is in a flow that followed the route. -/
theorem exists_flow_of_trace (hr : Reached net spaces)
    (hmask : ∀ n ∈ net.nodes, ∀ w, n.overwrite? = some w → w.mask.Concrete)
    (hdepth : ∀ n ∈ net.nodes, n.type = .source → ∀ space, spaces n.key = some space →
      heightList space.regions ≤ 2)
    (hroute : net.Route s legs) (hspace : spaces s.key = some space)
    (ht : net.Trace space legs y) :
    ∃ h f, net.Follows s h legs ∧ net.flows.find? h = some f ∧ f.Sends y := by
  obtain ⟨hrest, hrooted⟩ := hr.atRest
  obtain ⟨-, hs, htype, -⟩ := hroute.mem
  exact exists_follows hrest hrooted hroute hspace
    (fun n hn w hw ↦ ⟨hmask n hn w hw, hdepth s hs htype space hspace⟩) ht

/-- The sample with a second rule that makes the second bit `1`. -/
def overwritingSample : Network × (NodeKey → Option Space) :=
  (replay (sampleChanges ((Pattern.fill 1 .zero).put 1 .one) (Pattern.fill 1 .one))
    (.new 1 .default, fun _ ↦ none)).get (by decide +kernel)

/-- The header of zeros arrives with its second bit changed. -/
theorem exists_flow_of_trace_overwritingSample : ∃ s n,
    overwritingSample.1.Route s [⟨1, n, 11⟩] ∧ ∃ h f,
      overwritingSample.1.Follows s h [⟨1, n, 11⟩] ∧
        overwritingSample.1.flows.find? h = some f ∧ f.Sends fun i ↦ i == 1 := by
  have hreached : Reached overwritingSample.1 overwritingSample.2 :=
    (Reached.new 1 .default).replay (Option.some_get _).symm
  have hmask : ∀ n ∈ overwritingSample.1.nodes, ∀ w ∈ n.overwrite?,
      ∀ i < w.mask.width, (w.mask.trit i).isConcrete = true := by decide +kernel
  have hspaces : ∀ n ∈ overwritingSample.1.nodes, n.type = .source →
      overwritingSample.2 n.key = some (.ofPattern (.allWild 1)) := by decide +kernel
  have hheight : heightList (Space.ofPattern (.allWild 1)).regions ≤ 2 := by decide +kernel
  obtain ⟨s, hs, htype, hout⟩ : ∃ s ∈ overwritingSample.1.nodes, s.type = .source ∧
      1 ∈ s.outPorts.toList := by decide +kernel
  obtain ⟨n, hn, htype', hin, haccepts, hw, hindex⟩ : ∃ n ∈ overwritingSample.1.nodes,
      n.type ≠ .source ∧ 11 ∈ n.inPorts.toList ∧ n.accepts = some (.allWild 1) ∧
        n.overwrite? = some ⟨(Pattern.fill 1 .zero).put 1 .one, Pattern.fill 1 .one⟩ ∧
        ∀ r ∈ n.rule?, r.index = 2 := by decide +kernel
  have hfirst : ∀ m ∈ overwritingSample.1.nodes, ∀ r ∈ m.rule?, r.index < 2 →
      ∀ p ∈ m.accepts, p.allows 0 false = false := by decide +kernel
  have hlink : ⟨1, 11⟩ ∈ overwritingSample.1.links := by decide +kernel
  have hroute : overwritingSample.1.Route s [⟨1, n, 11⟩] :=
    .leg (.start hs htype) hout hn htype' hin hlink (by rintro - l ⟨⟩)
  refine ⟨s, n, hroute, exists_flow_of_trace hreached hmask ?_ hroute (hspaces s hs htype)
    (.leg (x := fun _ ↦ false) (.source ?_) ⟨_, haccepts, Pattern.matches_allWild 1 _⟩ ?_ ?_)⟩
  · intro m hm hsource space hspace
    obtain rfl := Option.some.inj ((hspaces m hm hsource).symm.trans hspace)
    exact hheight
  · exact Space.contains_ofPattern.2 (Pattern.matches_allWild 1 _)
  · rintro ⟨r, hr, m, hm, r', hr', -, hlt, -, p, hp, hx⟩
    rw [hindex r hr] at hlt
    have hno := hfirst m hm r' hr' hlt p hp
    rw [Pattern.matches_iff.1 hx 0] at hno
    exact absurd hno (by simp)
  · rw [Node.Turns, hw]
    intro i
    by_cases hi : i < 8
    · revert i
      decide +kernel
    · rw [if_neg fun h ↦ hi h.1]
      exact beq_false_of_ne (by omega)

end Network

end HeaderFlow
