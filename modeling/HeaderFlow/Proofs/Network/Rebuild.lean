import HeaderFlow.Proofs.Network.Carrying
import HeaderFlow.Proofs.Network.Catalogue

/-!
# Networks that were built another way

The same rules, links, sources and probes can be the outcome of many sequences of changes: in
another order, or with changes on the way that were taken back. Two networks that are *set up alike*
(`Network.SetUpAlike`) have the same routes, and the same headers come along them
(`SetUpAlike.yields_iff`); this is said without flows, so no history enters it. **Where nothing is
overwritten the flows at a node therefore have the same headers, however the network was built**
(`Reached.sends_iff`).

Where rules overwrite, the flows of all such networks still have every header that comes along a
route (`Reached.sends_of_yields`), **but what they have beyond that depends on the order of
changes** (`sends_late`). What a rule takes away later is a hole as it stands, and a hole with fewer
wild positions under the mask is lost when the region is overwritten, whereas a network that is
built anew overwrites what was compacted before.

## Comparing by routes

Keys and handles of the two networks have nothing to do with each other, so nodes are compared by
what they do (`Counterparts`): kind, accepted headers, ports, and for a source what it sends. A
route is carried over leg by leg (`SetUpAlike.exists_route`), to any counterpart of its end, and it
ends in a loop in the one network exactly if it does in the other, because rules are called by their
places. So what comes along routes is the same, and by `Reached.yields_iff_sends` this is what flows
have, where nothing is overwritten.

`Copies` is a decidable condition that is sufficient for being counterparts. It is how the closed
statements compare two networks that were built by different changes.
-/

namespace HeaderFlow.Network

variable {net net' : Network} {spaces spaces' : NodeKey → Option Space} {s s' n n' : Node}
  {legs legs' : List Leg} {space space' : Space} {p q : Port} {x y : Nat → Bool}

/-- The nodes do the same: they are of one kind, accept the same headers and have the same ports.
Sources send the same headers. -/
structure Counterparts (spaces spaces' : NodeKey → Option Space) (n n' : Node) : Prop where
  kind : n.core.kind = n'.core.kind
  accepts : n.accepts = n'.accepts
  inPorts : n.inPorts = n'.inPorts
  outPorts : n.outPorts = n'.outPorts
  space : n.type = .source → ∃ s s', spaces n.key = some s ∧ spaces' n'.key = some s' ∧
    ∀ x, s.Contains x ↔ s'.Contains x

/-- The networks have the same links and count the same rules as one place, and every node of the
one has its counterpart in the other. -/
structure SetUpAlike (net : Network) (spaces : NodeKey → Option Space) (net' : Network)
    (spaces' : NodeKey → Option Space) : Prop where
  links : ∀ l, l ∈ net.links ↔ l ∈ net'.links
  loops : net.settings.loopDetection = net'.settings.loopDetection
  there : ∀ n ∈ net.nodes, ∃ n' ∈ net'.nodes, Counterparts spaces spaces' n n'
  back : ∀ n' ∈ net'.nodes, ∃ n ∈ net.nodes, Counterparts spaces spaces' n n'

/-- The header `y` can leave the node at the end of a route. -/
def Yields (net : Network) (spaces : NodeKey → Option Space) (n : Node) (y : Nat → Bool) : Prop :=
  ∃ s legs space, net.Route s legs ∧ stop s legs = n ∧ spaces s.key = some space ∧
    net.Trace space legs y

/-- A flow at the node has the header. -/
def Sends (net : Network) (n : Node) (y : Nat → Bool) : Prop :=
  ∃ h f, net.flows.find? h = some f ∧ f.node = n.key ∧ f.Sends y

/-! ### Counterparts -/

namespace Counterparts

/-- Counterparts have one type. -/
theorem type (hc : Counterparts spaces spaces' n n') : n.type = n'.type := by
  have hkind := hc.kind
  cases hrole : n.role <;> cases hrole' : n'.role <;>
    simp_all [Node.type, Node.core, Role.kind]

/-- Counterparts may be exchanged. -/
theorem symm (hc : Counterparts spaces spaces' n n') : Counterparts spaces' spaces n' n where
  kind := hc.kind.symm
  accepts := hc.accepts.symm
  inPorts := hc.inPorts.symm
  outPorts := hc.outPorts.symm
  space htype := by
    obtain ⟨s, s', hs, hs', hsame⟩ := hc.space (hc.type.trans htype)
    exact ⟨s', s, hs', hs, fun x ↦ (hsame x).symm⟩

/-- Counterparts accept the same headers. -/
theorem accepts_iff (hc : Counterparts spaces spaces' n n') : n.Accepts x ↔ n'.Accepts x := by
  rw [Node.Accepts, Node.Accepts, hc.accepts]

theorem overwrite? (hc : Counterparts spaces spaces' n n') : n.overwrite? = n'.overwrite? := by
  have hkind := hc.kind
  cases hrole : n.role <;> cases hrole' : n'.role <;>
    simp_all [Node.overwrite?, Node.rule?, Node.core, Role.kind]

/-- Counterparts make the same of a header. -/
theorem turns_iff (hc : Counterparts spaces spaces' n n') : n.Turns x y ↔ n'.Turns x y := by
  rw [Node.Turns, Node.Turns, hc.overwrite?]

/-- The counterpart of a rule is a rule at the same place. -/
theorem rule? {r : Rule} (hc : Counterparts spaces spaces' n n') (hr : n.rule? = some r) :
    ∃ r', n'.rule? = some r' ∧ r'.table = r.table ∧ r'.index = r.index :=
  rule?_of_kind (hc.kind ▸ kind_of_rule? hr)

end Counterparts

/-! ### Networks that are set up alike -/

namespace SetUpAlike

/-- Networks that are set up alike may be exchanged. -/
theorem symm (ha : SetUpAlike net spaces net' spaces') : SetUpAlike net' spaces' net spaces where
  links l := (ha.links l).symm
  loops := ha.loops.symm
  there n' hn' := (ha.back n' hn').imp fun _ h ↦ ⟨h.1, h.2.symm⟩
  back n hn := (ha.there n hn).imp fun _ h ↦ ⟨h.1, h.2.symm⟩

/-- A rule that gets a header first has its counterpart. -/
theorem outranked (ha : SetUpAlike net spaces net' spaces')
    (hc : Counterparts spaces spaces' n n') : net.Outranked n p x → net'.Outranked n' p x := by
  rintro ⟨r, hr, m, hm, t, ht, htable, hlt, hport, haccepts⟩
  obtain ⟨m', hm', hcm⟩ := ha.there m hm
  obtain ⟨r', hr', hrtable, hrindex⟩ := hc.rule? hr
  obtain ⟨t', ht', httable, htindex⟩ := hcm.rule? ht
  exact ⟨r', hr', m', hm', t', ht', (httable.trans htable).trans hrtable.symm,
    htindex ▸ hrindex ▸ hlt, hcm.inPorts ▸ hport, hcm.accepts_iff.1 haccepts⟩

/-- **The same headers are taken from counterparts**, port by port. -/
theorem outranked_iff (ha : SetUpAlike net spaces net' spaces')
    (hc : Counterparts spaces spaces' n n') : net.Outranked n p x ↔ net'.Outranked n' p x :=
  ⟨ha.outranked hc, ha.symm.outranked hc.symm⟩

/-- Rules are called by their places, so counterparts are one place or two in both networks. -/
theorem loopKey (ha : SetUpAlike net spaces net' spaces') (hcat : Catalogued net)
    (hcat' : Catalogued net') (hn : n ∈ net.nodes) (hn' : n' ∈ net'.nodes)
    (hc : Counterparts spaces spaces' n n') (htype : n.type = .rule) :
    net.loopKey n = net'.loopKey n' := by
  obtain ⟨r, hrole⟩ : ∃ r, n.role = .rule r := by
    cases hrole : n.role <;> simp_all [Node.type]
  have hkind : n.core.kind = .rule r.table r.index r.overwrite := by rw [Node.core, hrole]; rfl
  have hid := hcat.called n.core (List.mem_map_of_mem hn) _ _ _ hkind
  have hid' := hcat'.called n'.core (List.mem_map_of_mem hn') _ _ _ (hc.kind ▸ hkind)
  rw [Network.loopKey, Network.loopKey, ha.loops, show n.id = n'.id from hid.trans hid'.symm]

end SetUpAlike

/-! ### Routes -/

/-- The legs lead by the same ports to counterparts. -/
def LegsAlike (spaces spaces' : NodeKey → Option Space) : List Leg → List Leg → Prop :=
  List.Forall₂ fun l l' ↦ l.outPort = l'.outPort ∧ l.inPort = l'.inPort ∧
    Counterparts spaces spaces' l.node l'.node

/-- Each leg has its counterpart. -/
theorem LegsAlike.exists_of_mem {l' : Leg} (hlegs : LegsAlike spaces spaces' legs legs')
    (hl' : l' ∈ legs') : ∃ l ∈ legs, Counterparts spaces spaces' l.node l'.node := by
  induction hlegs with
  | nil => cases hl'
  | cons hleg _ ih =>
    rcases List.mem_cons.1 hl' with rfl | hl'
    · exact ⟨_, List.mem_cons_self, hleg.2.2⟩
    · exact (ih hl').imp fun _ h ↦ ⟨List.mem_cons_of_mem _ h.1, h.2⟩

/-- Where one may leave a node one may leave its counterpart. -/
theorem Exits.counterpart (hexit : Exits s q legs) (hs : Counterparts spaces spaces' s s')
    (hlegs : LegsAlike spaces spaces' legs legs') : Exits s' q legs' := by
  cases hlegs with
  | nil =>
    rw [Exits, ← hs.outPorts]
    exact hexit
  | cons hleg _ =>
    obtain ⟨-, hin, hnode⟩ := hleg
    obtain ⟨htype, hout, hne⟩ := hexit
    exact ⟨hnode.type ▸ htype, hnode.outPorts ▸ hout, hin ▸ hne⟩

/-- **Every route has its counterpart**, to any counterpart of its end. -/
theorem SetUpAlike.exists_route (ha : SetUpAlike net spaces net' spaces') (hcat : Catalogued net)
    (hcat' : Catalogued net') (hroute : net.Route s legs) (hn' : n' ∈ net'.nodes)
    (hc : Counterparts spaces spaces' (stop s legs) n') :
    ∃ s' legs', net'.Route s' legs' ∧ stop s' legs' = n' ∧ Counterparts spaces spaces' s s' ∧
      LegsAlike spaces spaces' legs legs' := by
  induction hroute generalizing n' with
  | start _ htype => exact ⟨n', [], .start hn' (hc.type ▸ htype), rfl, hc, .nil⟩
  | @leg legs q p n hroute hexit hn htype hport hlink hloop ih =>
    obtain ⟨m', hm', hcm⟩ := ha.there _ hroute.mem.1
    obtain ⟨s', legs', hroute', rfl, hs, hlegs⟩ := ih hm' hcm
    refine ⟨s', ⟨q, n', p⟩ :: legs', .leg hroute' (hexit.counterpart hs hlegs) hn' (hc.type ▸ htype)
      (hc.inPorts ▸ hport) ((ha.links _).1 hlink) fun htype' l' hl' hsame ↦ ?_, rfl, hs,
      .cons ⟨rfl, rfl, hc⟩ hlegs⟩
    -- a place that is met again would be met again on the given route
    obtain ⟨l, hl, hnodes⟩ := hlegs.exists_of_mem hl'
    have hrule := hc.type.trans htype'
    have hkey := ha.loopKey hcat hcat' (hroute.mem.2.2.2 l hl).1 (hroute'.mem.2.2.2 l' hl').1 hnodes
      (hroute.isRule hexit l hl)
    exact hloop hrule l hl (hkey.trans (hsame.trans (ha.loopKey hcat hcat' hn hn' hc hrule).symm))

/-- **The same headers come along counterparts of a route.** -/
theorem SetUpAlike.trace (ha : SetUpAlike net spaces net' spaces')
    (hlegs : LegsAlike spaces spaces' legs legs')
    (hspace : ∀ x, space.Contains x ↔ space'.Contains x) (ht : net.Trace space legs y) :
    net'.Trace space' legs' y := by
  induction hlegs generalizing y with
  | nil =>
    obtain ⟨hx⟩ := ht
    exact .source ((hspace y).1 hx)
  | cons hleg _ ih =>
    obtain ⟨-, hin, hnode⟩ := hleg
    cases ht with
    | leg ht haccepts hfree hturns =>
      exact .leg (ih ht) (hnode.accepts_iff.1 haccepts)
        (hin ▸ fun h ↦ hfree ((ha.outranked_iff hnode).2 h)) (hnode.turns_iff.1 hturns)

/-- What comes along a route comes along its counterpart. -/
theorem SetUpAlike.yields (ha : SetUpAlike net spaces net' spaces') (hcat : Catalogued net)
    (hcat' : Catalogued net') (hn' : n' ∈ net'.nodes) (hc : Counterparts spaces spaces' n n')
    (hy : net.Yields spaces n y) : net'.Yields spaces' n' y := by
  obtain ⟨s, legs, space, hroute, rfl, hspace, ht⟩ := hy
  obtain ⟨s', legs', hroute', hstop, hs, hlegs⟩ := ha.exists_route hcat hcat' hroute hn' hc
  obtain ⟨t, space', ht', hspace', hsame⟩ := hs.space hroute.mem.2.2.1
  obtain rfl := Option.some.inj (hspace.symm.trans ht')
  exact ⟨s', legs', space', hroute', hstop, hspace', ha.trace hlegs hsame ht⟩

/-- **The same headers leave counterparts**, whatever flows there are. -/
theorem SetUpAlike.yields_iff (ha : SetUpAlike net spaces net' spaces') (hcat : Catalogued net)
    (hcat' : Catalogued net') (hn : n ∈ net.nodes) (hn' : n' ∈ net'.nodes)
    (hc : Counterparts spaces spaces' n n') : net.Yields spaces n y ↔ net'.Yields spaces' n' y :=
  ⟨ha.yields hcat hcat' hn' hc, ha.symm.yields hcat' hcat hn hc.symm⟩

/-! ### Flows -/

theorem Reached.catalogued (hr : Reached net spaces) : Catalogued net := by
  induction hr with
  | new bytes settings clock => exact ⟨.nil, by rintro _ ⟨⟩, by rintro _ ⟨⟩, .nil⟩
  | apply m _ _ ih => exact catalogued_apply ih m

/-- Without overwriting, what leaves a node along routes is what the flows at it have. -/
theorem Reached.yields_iff_sends (hr : Reached net spaces)
    (hplain : ∀ n ∈ net.nodes, n.overwrite? = none) (hn : n ∈ net.nodes) :
    net.Yields spaces n x ↔ net.Sends n x := by
  refine Iff.trans ?_ (gets_iff hr hplain hn)
  constructor
  · rintro ⟨s, legs, space, hroute, hstop, hspace, ht⟩
    exact ⟨s, legs, space, hroute, hstop, hspace, (trace_iff_of_plain hplain hroute).1 ht⟩
  · rintro ⟨s, legs, space, hroute, hstop, hspace, hx⟩
    exact ⟨s, legs, space, hroute, hstop, hspace, (trace_iff_of_plain hplain hroute).2 hx⟩

/-- **Without overwriting, the flows at counterparts have the same headers**, however the networks
were built. -/
theorem Reached.sends_iff (hr : Reached net spaces) (hr' : Reached net' spaces')
    (ha : SetUpAlike net spaces net' spaces') (hplain : ∀ n ∈ net.nodes, n.overwrite? = none)
    (hn : n ∈ net.nodes) (hn' : n' ∈ net'.nodes) (hc : Counterparts spaces spaces' n n') :
    net.Sends n x ↔ net'.Sends n' x := by
  have hplain' : ∀ n' ∈ net'.nodes, n'.overwrite? = none := fun m' hm' ↦ by
    obtain ⟨m, hm, hcm⟩ := ha.back m' hm'
    exact hcm.overwrite? ▸ hplain m hm
  exact (hr.yields_iff_sends hplain hn).symm.trans <|
    (ha.yields_iff hr.catalogued hr'.catalogued hn hn' hc).trans (hr'.yields_iff_sends hplain' hn')

/-- **No history loses a header.** Where masks are concrete and the holes of sources are not nested,
the flows at a node have every header that leaves it along a route. -/
theorem Reached.sends_of_yields (hr : Reached net spaces)
    (hmask : ∀ n ∈ net.nodes, ∀ w, n.overwrite? = some w → w.mask.Concrete)
    (hdepth : ∀ n ∈ net.nodes, n.type = .source → ∀ space, spaces n.key = some space →
      Region.heightList space.regions ≤ 2)
    (hy : net.Yields spaces n y) : net.Sends n y := by
  obtain ⟨s, legs, space, hroute, rfl, hspace, ht⟩ := hy
  obtain ⟨h, f, hfollows, hf, hsends⟩ := exists_flow_of_trace hr hmask hdepth hroute hspace ht
  obtain ⟨f', hf', hnode⟩ := hfollows.live
  obtain rfl := Option.some.inj (hf.symm.trans hf')
  exact ⟨h, f, hf, hnode, hsends⟩

/-! ### Two histories -/

deriving instance DecidableEq for Kind

/-- The nodes are the same in all that counterparts are compared by. -/
def Copies (spaces spaces' : NodeKey → Option Space) (n n' : Node) : Prop :=
  n.core.kind = n'.core.kind ∧ n.accepts = n'.accepts ∧ n.inPorts = n'.inPorts ∧
  n.outPorts = n'.outPorts ∧
    spaces n.key = spaces' n'.key ∧ (n.type = .source → (spaces n.key).isSome = true)

instance : Decidable (Copies spaces spaces' n n') := inferInstanceAs (Decidable (_ ∧ _))

/-- Nodes that are the same in all that is compared are counterparts. -/
theorem Copies.counterparts (hc : Copies spaces spaces' n n') :
    Counterparts spaces spaces' n n' := by
  obtain ⟨hkind, haccepts, hin, hout, hspace, hsome⟩ := hc
  refine ⟨hkind, haccepts, hin, hout, fun htype ↦ ?_⟩
  obtain ⟨s, hs⟩ := Option.isSome_iff_exists.1 (hsome htype)
  exact ⟨s, s, hs, hspace ▸ hs, fun _ ↦ .rfl⟩

/-- Networks are set up alike if each node has a copy in the other one. -/
theorem SetUpAlike.of_copies (hlinks : net.links = net'.links)
    (hloops : net.settings.loopDetection = net'.settings.loopDetection)
    (hthere : ∀ n ∈ net.nodes, ∃ n' ∈ net'.nodes, Copies spaces spaces' n n')
    (hback : ∀ n' ∈ net'.nodes, ∃ n ∈ net.nodes, Copies spaces spaces' n n') :
    SetUpAlike net spaces net' spaces' where
  links _ := hlinks ▸ .rfl
  loops := hloops
  there n hn := (hthere n hn).imp fun _ h ↦ ⟨h.1, h.2.counterparts⟩
  back n' hn' := (hback n' hn').imp fun _ h ↦ ⟨h.1, h.2.counterparts⟩

/-- Two tables in a row. -/
def twoTables : List Mutation :=
  [.addTable 1 [11, 12], .addTable 2 [21, 22], .addLink ⟨1, 11⟩, .addLink ⟨12, 21⟩]

/-- The rule of the first table forwards all headers of a source, and the rule of the second clears
the first bit. -/
def clearing : List Mutation :=
  [.addRule { table := 1, index := 3, inPorts := [11], outPorts := [12], accepts := .allWild 1 },
    .addRule {
      table := 2, index := 1, inPorts := [21], outPorts := [22], accepts := .allWild 1
      mask := some ((Pattern.fill 1 .zero).put 0 .one), value := some (.fill 1 .zero) },
    .addSourcePattern (.allWild 1) [1]]

/-- Two rules of the first table that together take all headers whose second bit is set. -/
def taking : List Mutation :=
  [.zero, .one].mapIdx fun i t ↦ .addRule {
    table := 1, index := UInt32.ofNat i, inPorts := [11], outPorts := []
    accepts := ((Pattern.allWild 1).put 0 t).put 1 .one }

/-- Headers are taken from the start. -/
def early : Network × (NodeKey → Option Space) :=
  (replay (twoTables ++ taking ++ clearing) (.new 1 .default, fun _ ↦ none)).get (by decide +kernel)

/-- Headers are taken after they were sent on. -/
def late : Network × (NodeKey → Option Space) :=
  (replay (twoTables ++ clearing ++ taking) (.new 1 .default, fun _ ↦ none)).get (by decide +kernel)

/-- There is one flow at the node, with these headers. -/
def Carries (net : Network) (n : Node) (space : Space) : Prop :=
  ∃ h ∈ n.flows.head?, n.flows = [h] ∧ ∃ f ∈ net.flows.find? h, f.node = n.key ∧
    f.processed = some space

instance (net : Network) (n : Node) (space : Space) : Decidable (net.Carries n space) :=
  inferInstanceAs (Decidable (∃ _ ∈ _, _))

/-- With a single flow at a node, what the node sends can be read off it. -/
theorem Reached.sends_iff_of_carries (hr : Reached net spaces) (hn : n ∈ net.nodes)
    (hc : net.Carries n space) : net.Sends n x ↔ space.Contains x := by
  obtain ⟨h, -, hflows, f, hf, hnode, hprocessed⟩ := hc
  constructor
  · rintro ⟨k, g, hg, hgnode, sent, hsent, hx⟩
    -- whatever is at the node is listed there
    have hk := hr.atRest.1.inv.listed.all k g hg (Set.notMem_empty k)
    rw [hgnode, roster, tied_of_nodeAt? (nodeAt?_of_mem hr.attained.watched.nodup hn), hflows] at hk
    obtain rfl := List.mem_singleton.1 hk
    obtain rfl := Option.some.inj (hf.symm.trans hg)
    obtain rfl := Option.some.inj (hprocessed.symm.trans hsent)
    exact hx
  · exact fun hx ↦ ⟨h, f, hf, hnode, space, hprocessed, hx⟩

/-- **With overwriting, flows depend on the order of the changes.** If headers are taken later, the
two holes are lost when the first bit is cleared. If they are taken first, compacting makes one hole
of the two, and it stays. -/
theorem sends_late : SetUpAlike early.1 early.2 late.1 late.2 ∧
    ∃ n ∈ early.1.nodes, ∃ n' ∈ late.1.nodes, Counterparts early.2 late.2 n n' ∧
      ∃ x, late.1.Sends n' x ∧ ¬ early.1.Sends n x := by
  have hearly : Reached early.1 early.2 := (Reached.new 1 .default).replay (Option.some_get _).symm
  have hlate : Reached late.1 late.2 := (Reached.new 1 .default).replay (Option.some_get _).symm
  obtain ⟨hlinks, hloops, hthere, hback⟩ : early.1.links = late.1.links ∧
      early.1.settings.loopDetection = late.1.settings.loopDetection ∧
      (∀ n ∈ early.1.nodes, ∃ n' ∈ late.1.nodes, Copies early.2 late.2 n n') ∧
      ∀ n' ∈ late.1.nodes, ∃ n ∈ early.1.nodes, Copies early.2 late.2 n n' := by
    decide +kernel
  obtain ⟨n, hn, n', hn', hcopies, hfew, hmany⟩ :
      ∃ n ∈ early.1.nodes, ∃ n' ∈ late.1.nodes, Copies early.2 late.2 n n' ∧
        early.1.Carries n (.ofPattern (((Pattern.allWild 1).put 0 .zero).put 1 .zero)) ∧
        late.1.Carries n' (.ofPattern ((Pattern.allWild 1).put 0 .zero)) := by
    decide +kernel
  refine ⟨.of_copies hlinks hloops hthere hback, n, hn, n', hn', hcopies.counterparts,
    fun i ↦ i == 1, ?_, ?_⟩
  · rw [hlate.sends_iff_of_carries hn' hmany, Space.contains_ofPattern, Pattern.Matches]
    decide +kernel
  · rw [hearly.sends_iff_of_carries hn hfew, Space.contains_ofPattern, Pattern.Matches]
    decide +kernel

end HeaderFlow.Network
