import HeaderFlow.Proofs.Network.Lookup
import HeaderFlow.Proofs.Network.Wiring

/-!
# The pipes of a node and of a link

A new node gets the pipes that `Network.wiresOf` lists, and a new link those between the nodes at
its ends. **None of them is missing afterwards**, and each leads where it should. What a node or a
link had is removed with the flows that came by it, or after them.

## Two ways to the same pipes

* By node: `wiresOf` goes through the ports of the node and the links at each, and asks for the
  nodes at the other end. `builds_of_wiresOf` says that every pipe it lists should be there, and
  `exists_of_wiresOf` that it lists every pipe of the node that should. `upheld_connect` builds them
  one by one, and `unbuilt` is what is missing in between.
* By link: `connectLink` goes through all pairs of senders and receivers. Here what is missing in
  between is described by two lists, of the senders that are done and of those that are not
  (`sentBy`, `sentTo`).

In both cases no flow is sent before the pipe is there, and what is sent is owed until then
(`inbound`).

## Taking pipes away

`upheld_isolate` takes all flows from a node and then all of its pipes, in this order; flows are
what an orphaned pipe would be owed for. `upheld_disconnectLink` does so for the pipes along one
link and leaves the others alone. The loops have invariants of their own, with the sides that have
still to be gone through (`Unplugs`, `Unlinks`).
-/

namespace HeaderFlow

variable {L L' L'' : Layout} {net net' : Network} {D : Set Debt} {X : Set Handle}
  {E : NodeKey → NodeKey → Link → Prop} {R : NodeKey → NodeKey → Prop} {key : NodeKey} {h : Handle}

/-! ### Which pipes are built

A pipe is built where the ports of two nodes are linked and the patterns have a header in common.
`wiresOf_eq` reads the list off the directory and the links, and the rest says that it lists no pipe
too many and none too few. -/

/-- The headers that match two patterns, if there are any. -/
theorem Pattern.intersect_spec {p q : Pattern} {o : Option Pattern} (ho : p.intersect q = .ok o) :
    (∀ c, o = some c → ∀ x, c.Matches x ↔ p.Matches x ∧ q.Matches x) ∧
      ∀ x, p.Matches x → q.Matches x → ∃ c, o = some c := by
  obtain ⟨hbytes, rfl⟩ := Pattern.of_intersect_eq_ok ho
  refine ⟨fun c hc x ↦ Pattern.matches_of_meet?_eq_some hbytes hc, fun x hpx hqx ↦ ?_⟩
  cases hm : Pattern.meet? p q with
  | none => exact absurd hqx (Pattern.not_matches_of_meet?_eq_none hbytes hm hpx)
  | some c => exact ⟨c, rfl⟩

/-- What is built between two nodes carries what they have in common, and nothing is built only if
that is nothing. -/
theorem Node.of_overlap {r : Node} {sends : Pattern} {o : Option Pattern}
    (ho : r.overlap sends = .ok o) :
    (∀ q, o = some q → ∃ p, r.accepts = some p ∧ ∀ x, q.Matches x ↔ p.Matches x ∧ sends.Matches x) ∧
      ∀ p x, r.accepts = some p → p.Matches x → sends.Matches x → ∃ q, o = some q := by
  rw [Node.overlap] at ho
  cases hp : r.accepts with
  | none =>
    simp only [hp, Except.ok.injEq] at ho
    subst ho
    simp
  | some p =>
    simp only [hp] at ho
    obtain ⟨hsome, hnone⟩ := Pattern.intersect_spec ho
    refine ⟨fun q hq ↦ ⟨p, rfl, hsome q hq⟩, ?_⟩
    rintro _ x ⟨⟩
    exact hnone x

namespace Network

variable {s r : Node} {outPort inPort : Port} {ns : List Node} {ws : List Wire}

/-- The wires from a sender to a list of receivers, one to each with which it has headers in
common. -/
theorem of_wiresTo (hws : wiresTo s outPort inPort ns = .ok ws) :
    (∀ n ∈ ns, ∃ o, n.overlap s.sends = .ok o) ∧
      ∀ w, w ∈ ws ↔ ∃ n ∈ ns, ∃ p, n.overlap s.sends = .ok (some p) ∧
        w = ⟨s.key, outPort, n.key, inPort, p⟩ := by
  induction ns generalizing ws with
  | nil =>
    obtain rfl := Except.ok.inj hws
    simp
  | cons n ns ih =>
    simp only [wiresTo, Checked.bind_eq_ok] at hws
    obtain ⟨o, ho, more, hmore, hws⟩ := hws
    obtain rfl := Except.ok.inj hws
    obtain ⟨hall, hmem⟩ := ih hmore
    refine ⟨List.forall_mem_cons.2 ⟨⟨o, ho⟩, hall⟩, fun w ↦ ?_⟩
    cases o <;> simp [ho, hmem]

/-- The wires from a list of senders to a receiver. -/
theorem of_wiresFrom (hws : wiresFrom r outPort inPort ns = .ok ws) :
    (∀ n ∈ ns, ∃ o, r.overlapOther n = .ok o) ∧
      ∀ w, w ∈ ws ↔ ∃ n ∈ ns, ∃ p, r.overlapOther n = .ok (some p) ∧
        w = ⟨n.key, outPort, r.key, inPort, p⟩ := by
  induction ns generalizing ws with
  | nil =>
    obtain rfl := Except.ok.inj hws
    simp
  | cons n ns ih =>
    simp only [wiresFrom, Checked.bind_eq_ok] at hws
    obtain ⟨o, ho, more, hmore, hws⟩ := hws
    obtain rfl := Except.ok.inj hws
    obtain ⟨hall, hmem⟩ := ih hmore
    refine ⟨List.forall_mem_cons.2 ⟨⟨o, ho⟩, hall⟩, fun w ↦ ?_⟩
    cases o <;> simp [ho, hmem]

/-- The pipes of a new node lead to the nodes that a search finds. -/
theorem wiresOf_eq (hL : net.layout.WellFormed) (n : Node) : net.wiresOf n = do
    let outgoing ← n.outPorts.toList.mapM fun q ↦
      (net.targets q).mapM fun p ↦ wiresTo n q p (net.receiversAt p)
    let incoming ← n.inPorts.toList.mapM fun p ↦
      (net.origins p).mapM fun q ↦ wiresFrom n q p (net.sendersAt q)
    return (outgoing ++ incoming).flatten.flatten := by
  simp only [wiresOf, receivers_eq hL, senders_eq hL, Checked.ok_bind]

/-- The wires of a node: those to the receivers at the other ends of its links, and those from the
senders there. -/
theorem of_wiresOf {n : Node} (hL : net.layout.WellFormed) (hws : net.wiresOf n = .ok ws) :
    (∀ q ∈ n.outPorts.toList, ∀ p, ⟨q, p⟩ ∈ net.links →
      ∃ us, wiresTo n q p (net.receiversAt p) = .ok us ∧ ∀ w ∈ us, w ∈ ws) ∧
    (∀ p ∈ n.inPorts.toList, ∀ q, ⟨q, p⟩ ∈ net.links →
      ∃ us, wiresFrom n q p (net.sendersAt q) = .ok us ∧ ∀ w ∈ us, w ∈ ws) ∧
    ∀ w ∈ ws, (∃ q ∈ n.outPorts.toList, ∃ p us, ⟨q, p⟩ ∈ net.links ∧
        wiresTo n q p (net.receiversAt p) = .ok us ∧ w ∈ us) ∨
      ∃ p ∈ n.inPorts.toList, ∃ q us, ⟨q, p⟩ ∈ net.links ∧
        wiresFrom n q p (net.sendersAt q) = .ok us ∧ w ∈ us := by
  rw [wiresOf_eq hL] at hws
  simp only [Checked.bind_eq_ok] at hws
  obtain ⟨outgoing, hout, incoming, hin, hws⟩ := hws
  obtain rfl := Except.ok.inj hws
  obtain ⟨hallOut, hmemOut⟩ := Checked.of_mapM_eq_ok hout
  obtain ⟨hallIn, hmemIn⟩ := Checked.of_mapM_eq_ok hin
  refine ⟨fun q hq p hl ↦ ?_, fun p hp q hl ↦ ?_, fun w hw ↦ ?_⟩
  · obtain ⟨uss, huss⟩ := hallOut q hq
    obtain ⟨hall, hmem⟩ := Checked.of_mapM_eq_ok huss
    obtain ⟨us, hus⟩ := hall p (mem_targets.2 hl)
    refine ⟨us, hus, fun w hw ↦ List.mem_flatten.2 ⟨us, List.mem_flatten.2 ⟨uss, ?_, ?_⟩, hw⟩⟩
    · exact List.mem_append_left _ ((hmemOut uss).2 ⟨q, hq, huss⟩)
    · exact (hmem us).2 ⟨p, mem_targets.2 hl, hus⟩
  · obtain ⟨uss, huss⟩ := hallIn p hp
    obtain ⟨hall, hmem⟩ := Checked.of_mapM_eq_ok huss
    obtain ⟨us, hus⟩ := hall q ((mem_origins hL).2 hl)
    refine ⟨us, hus, fun w hw ↦ List.mem_flatten.2 ⟨us, List.mem_flatten.2 ⟨uss, ?_, ?_⟩, hw⟩⟩
    · exact List.mem_append_right _ ((hmemIn uss).2 ⟨p, hp, huss⟩)
    · exact (hmem us).2 ⟨q, (mem_origins hL).2 hl, hus⟩
  · obtain ⟨us, hus, hwus⟩ := List.mem_flatten.1 hw
    obtain ⟨uss, huss, huss'⟩ := List.mem_flatten.1 hus
    rcases List.mem_append.1 huss with huss | huss
    · obtain ⟨q, hq, hk⟩ := (hmemOut uss).1 huss
      obtain ⟨p, hp, hk⟩ := ((Checked.of_mapM_eq_ok hk).2 us).1 huss'
      exact .inl ⟨q, hq, p, us, mem_targets.1 hp, hk, hwus⟩
    · obtain ⟨p, hp, hk⟩ := (hmemIn uss).1 huss
      obtain ⟨q, hq, hk⟩ := ((Checked.of_mapM_eq_ok hk).2 us).1 huss'
      exact .inr ⟨p, hp, q, us, (mem_origins hL).1 hq, hk, hwus⟩

/-- **Every pipe that is built should be there**, and is one of the node. -/
theorem builds_of_wiresOf {n : Node} {w : Wire} (hws : net.wiresOf n = .ok ws) (hn : n ∈ net.nodes)
    (hL : net.layout.WellFormed) (hw : w ∈ ws) :
    net.layout.Builds w ∧ (w.sender = n.key ∨ w.receiver = n.key) := by
  have hcore : ∀ m ∈ net.nodes, net.layout.core? m.key = some m.core := fun m ↦
    core?_core hL.nodup
  rcases (of_wiresOf hL hws).2.2 w hw with
    ⟨q, hq, p, us, hl, hus, hwu⟩ | ⟨p, hp, q, us, hl, hus, hwu⟩
  · obtain ⟨m, hm, o, ho, rfl⟩ := ((of_wiresTo hus).2 w).1 hwu
    obtain ⟨hm, hpm⟩ := mem_receiversAt.1 hm
    obtain ⟨a, ha, hx⟩ := (Node.of_overlap ho).1 o rfl
    exact ⟨⟨n.core, m.core, a, hcore n hn, hcore m hm, hq, hpm, hl, ha, hx⟩, .inl rfl⟩
  · obtain ⟨m, hm, o, ho, rfl⟩ := ((of_wiresFrom hus).2 w).1 hwu
    obtain ⟨hm, hqm⟩ := mem_sendersAt.1 hm
    rw [Node.overlapOther] at ho
    split at ho
    · exact absurd (Except.ok.inj ho) (by simp)
    · obtain ⟨a, ha, hx⟩ := (Node.of_overlap ho).1 o rfl
      exact ⟨⟨m.core, n.core, a, hcore m hm, hcore n hn, hqm, hp, hl, ha, hx⟩, .inr rfl⟩

/-- **Every pipe of a node that should be there is among those that are built.** -/
theorem exists_of_wiresOf {n : Node} (hws : net.wiresOf n = .ok ws) (hn : n ∈ net.nodes)
    (hL : net.layout.WellFormed) :
    ∀ s ∈ net.nodes, ∀ r ∈ net.nodes, s.key = n.key ∨ r.key = n.key →
      ∀ q ∈ s.outPorts.toList, ∀ p ∈ r.inPorts.toList, ⟨q, p⟩ ∈ net.links → ∀ a x,
      r.accepts = some a → a.Matches x → s.sends.Matches x →
      ∃ w ∈ ws, w.sender = s.key ∧ w.outPort = q ∧ w.receiver = r.key ∧ w.inPort = p := by
  obtain ⟨hout, hin, -⟩ := of_wiresOf hL hws
  have hnodup := map_key_cores net ▸ hL.nodup
  intro s hs r hr hkey q hq p hp hl a x ha hax hsx
  by_cases hsn : s.key = n.key
  · obtain rfl := Engine.eq_of_key_eq hnodup hs hn hsn
    obtain ⟨us, hus, hsub⟩ := hout q hq p hl
    obtain ⟨hall, hmemu⟩ := of_wiresTo hus
    have hrec := mem_receiversAt.2 ⟨hr, hp⟩
    obtain ⟨o, ho⟩ := hall r hrec
    obtain ⟨b, rfl⟩ := (Node.of_overlap ho).2 a x ha hax hsx
    exact ⟨_, hsub _ ((hmemu _).2 ⟨r, hrec, b, ho, rfl⟩), rfl, rfl, rfl, rfl⟩
  · obtain rfl := Engine.eq_of_key_eq hnodup hr hn (hkey.resolve_left hsn)
    obtain ⟨us, hus, hsub⟩ := hin p hp q hl
    obtain ⟨hall, hmemu⟩ := of_wiresFrom hus
    have hsend := mem_sendersAt.2 ⟨hs, hq⟩
    obtain ⟨o, ho⟩ := hall s hsend
    have ho' := ho
    rw [Node.overlapOther, if_neg hsn] at ho'
    obtain ⟨b, rfl⟩ := (Node.of_overlap ho').2 a x ha hax hsx
    exact ⟨_, hsub _ ((hmemu _).2 ⟨s, hsend, b, ho, rfl⟩), rfl, rfl, rfl, rfl⟩

end Network

/-! ### Connecting a node

The new pipes are built one after another, with no flow sent meanwhile. In between some of them are
missing, and the flows at their senders owe them; both are described by the list of those still to
be built. -/

/-- The layouts differ at most in their pipes. -/
structure SamePlan (L L' : Layout) : Prop where
  cores : L'.cores = L.cores
  registry : L'.registry = L.registry
  topology : L'.topology = L.topology
  influences : L'.influences = L.influences
  lost : L'.lost = L.lost
  won : L'.won = L.won

namespace SamePlan

theorem refl (L : Layout) : SamePlan L L := ⟨rfl, rfl, rfl, rfl, rfl, rfl⟩

theorem trans (h₁ : SamePlan L L') (h₂ : SamePlan L' L'') : SamePlan L L'' :=
  ⟨h₂.cores.trans h₁.cores, h₂.registry.trans h₁.registry, h₂.topology.trans h₁.topology,
    h₂.influences.trans h₁.influences, h₂.lost.trans h₁.lost, h₂.won.trans h₁.won⟩

theorem of_eq (h : L' = L) : SamePlan L L' := h ▸ .refl L

/-- The same ports are linked. -/
theorem links (hp : SamePlan L L') : L'.links = L.links := congrArg Topology.links hp.topology

/-- The same nodes are there. -/
theorem core? (hp : SamePlan L L') : L'.core? key = L.core? key := by
  rw [Layout.core?, Layout.core?, hp.cores]

theorem plug (L : Layout) (w : Wire) : SamePlan L (L.plug w) := ⟨rfl, rfl, rfl, rfl, rfl, rfl⟩

theorem unplug (L : Layout) (h h' : Handle) : SamePlan L (L.unplug h h') :=
  ⟨rfl, rfl, rfl, rfl, rfl, rfl⟩

/-- Which wires should be built does not depend on those that are. -/
theorem builds (hp : SamePlan L L') {w : Wire} (hw : L.Builds w) : L'.Builds w := by
  obtain ⟨n, m, p, hn, hm, hout, hin, hl, hrest⟩ := hw
  refine ⟨n, m, p, ?_, ?_, hout, hin, hp.links ▸ hl, hrest⟩
  · rw [Layout.core?, hp.cores]
    exact hn
  · rw [Layout.core?, hp.cores]
    exact hm

end SamePlan

/-- What flows owe for the pipes that lead to a node. -/
def inbound (L : Layout) (key : NodeKey) : Set Debt :=
  {e | ∃ h fwd w, e = .pending h fwd ∧ L.Runs fwd w ∧ w.receiver = key}

/-- The side of a pipe is listed at the node. -/
def Layout.Lists (L : Layout) (key : NodeKey) (h : Handle) : Prop := h ∈ L.next key ∨ h ∈ L.prev key

/-- A side that is listed belongs to a pipe of the node. -/
theorem Layout.Lists.joins (hlists : L.Lists key h) (hL : L.WellFormed) :
    ∃ fwd back a b s r, L.Joins fwd back a b s r ∧ (h = fwd ∨ h = back) ∧
      (a.node = key ∨ b.node = key) := by
  rcases hlists with hmem | hmem
  · obtain ⟨back, a, b, s, r, hj, hkey⟩ := hL.next key h hmem
    exact ⟨h, back, a, b, s, r, hj, .inl rfl, .inl hkey⟩
  · obtain ⟨fwd, a, b, s, r, hj, hkey⟩ := hL.prev key h hmem
    exact ⟨fwd, h, a, b, s, r, hj, .inr rfl, .inr hkey⟩

/-- The node is sender or receiver. -/
def touching (key : NodeKey) : NodeKey → NodeKey → Link → Prop := fun s r _ ↦ s = key ∨ r = key

namespace Engine

/-- The wires are missing, besides what `E` leaves out. -/
def unbuilt (E : NodeKey → NodeKey → Link → Prop) (ws : List Wire) :
    NodeKey → NodeKey → Link → Prop :=
  fun s r l ↦ E s r l ∨ ∃ w ∈ ws, w.sender = s ∧ w.receiver = r ∧ l = ⟨w.outPort, w.inPort⟩

/-- What is missing at a node are the wires that `Network.wiresOf` lists. -/
theorem wired_unbuilt {n : Node} {ws : List Wire} (hws : net.wiresOf n = .ok ws)
    (hn : n ∈ net.nodes) (hL : net.layout.WellFormed)
    (hw : net.layout.Wired fun s r l ↦ E s r l ∨ touching n.key s r l) :
    net.layout.Wired (unbuilt E ws) := by
  intro s hs r hr q hq p hp hlink hnot a x ha hax hsx
  by_cases htouch : touching n.key s.key r.key ⟨q, p⟩
  · obtain ⟨s', hs', rfl⟩ := List.mem_map.1 hs
    obtain ⟨r', hr', rfl⟩ := List.mem_map.1 hr
    obtain ⟨w, hw, hsender, rfl, hreceiver, rfl⟩ :=
      Network.exists_of_wiresOf hws hn hL s' hs' r' hr' htouch q hq p hp hlink a x ha hax hsx
    exact absurd (.inr ⟨w, hw, hsender, hreceiver, rfl⟩) hnot
  · exact hw s hs r hr q hq p hp hlink (fun he ↦ he.elim (fun he ↦ hnot (.inl he)) htouch)
      a x ha hax hsx

/-- One wire of a node at which no flow is gets its pipe. -/
theorem upheld_buildWire {w : Wire} {ws : List Wire} {fwd : Handle}
    (hl : Leads (addPipe w) net fwd net')
    (hU : Upheld net (D ∪ inbound net.layout key) X (unbuilt E (w :: ws)) R)
    (hbuild : net.layout.Builds w) (htouch : w.sender = key ∨ w.receiver = key)
    (hfree : ∀ h f, net.flows.find? h = some f → f.node ≠ key) :
    Upheld net' (D ∪ inbound net'.layout key) X (unbuilt E ws) R ∧ net'.flows = net.flows ∧
      SamePlan net.layout net'.layout := by
  obtain ⟨rfl, hlayout, hflows, -⟩ := hl.addPipe hbuild
  have hruns : ∀ fwd w', (net.layout.plug w).Runs fwd w' ↔ _ := fun fwd w' ↦
    Layout.runs_plug hU.inv.layout hbuild
  refine ⟨upheld_addPipe hl hU hbuild ?_ ?_ ?_, hflows, hlayout ▸ .plug _ w⟩
  · rintro e (he | ⟨h, fwd, w', rfl, hrun, hreceiver⟩)
    · exact .inl he
    · refine .inr ⟨h, fwd, w', rfl, ?_, hreceiver⟩
      rw [hlayout, hruns]
      exact .inl hrun
  · rintro s r l (he | ⟨w', hw', rfl, rfl, rfl⟩)
    · exact .inl (.inl he)
    · rcases List.mem_cons.1 hw' with rfl | hw'
      · exact .inr ⟨rfl, rfl, rfl⟩
      · exact .inl (.inr ⟨w', hw', rfl, rfl, rfl⟩)
  · intro h f hf hsender
    refine .inr ⟨h, _, w, rfl, ?_, htouch.resolve_left fun hs ↦ hfree h f hf (hsender.trans hs)⟩
    rw [hlayout, hruns]
    exact .inr ⟨rfl, rfl⟩

/-- **Connecting a node at which nothing is yet**: none of its pipes is missing, and those that lead
to it are owed. -/
theorem upheld_connect (hl : Leads (connect key) net () net')
    (hU : Upheld net D X (fun s r l ↦ E s r l ∨ touching key s r l) R)
    (hfree : ∀ h f, net.flows.find? h = some f → f.node ≠ key) :
    Upheld net' (D ∪ inbound net'.layout key) X E R ∧ net'.flows = net.flows ∧
      SamePlan net.layout net'.layout := by
  rw [connect, leads_node_bind] at hl
  obtain ⟨n, hn, hl⟩ := hl
  rw [leads_ask_bind] at hl
  obtain ⟨ws, hws, hl⟩ := hl
  obtain ⟨hmem, rfl⟩ := nodeAt?_eq_some hn
  obtain ⟨hU', hrest⟩ := hl.forM (I := fun rest mid ↦
      Upheld mid (D ∪ inbound mid.layout n.key) X (unbuilt E rest) R ∧
        mid.flows = net.flows ∧ SamePlan net.layout mid.layout)
    ⟨⟨hU.inv.mono fun _ ↦ .inl, hU.ordered, wired_unbuilt hws hmem hU.inv.layout hU.wired,
      hU.ranked⟩, rfl, .refl _⟩ fun w rest mid mid' hw ⟨hUmid, hflows, hplan⟩ hstep ↦ by
    obtain ⟨fwd, hadd⟩ := hstep.discard
    obtain ⟨hbuild, htouch⟩ := Network.builds_of_wiresOf hws hmem hU.inv.layout hw
    obtain ⟨hU', hflows', hplan'⟩ := upheld_buildWire hadd hUmid (hplan.builds hbuild) htouch
      (hflows ▸ hfree)
    exact ⟨hU', hflows'.trans hflows, hplan.trans hplan'⟩
  refine ⟨{ hU' with wired := hU'.wired.mono ?_ }, hrest⟩
  rintro s r l (he | ⟨w, hw, -⟩)
  · exact he
  · exact absurd hw List.not_mem_nil

/-! ### Disconnecting a node -/

/-- Where no flow is at a node, none came by its pipes. -/
theorem pipe_ne_of_free (hI : Inv net ∅ D)
    (hfree : ∀ h f, net.flows.find? h = some f → f.node ≠ key) {fwd back : Handle} {a b : Pipe}
    {n m : Core} (hj : net.layout.Joins fwd back a b n m) (htouch : a.node = key ∨ b.node = key)
    (c : Handle) (g : Flow) (hg : net.flows.find? c = some g) (hparent : g.parent ≠ none) :
    g.pipe ≠ some fwd := by
  intro hpipe
  obtain ⟨p, hp⟩ := Option.ne_none_iff_exists'.1 hparent
  obtain ⟨f, fwd', w, hf, hpipe', hw, hsender, hreceiver, -⟩ := hI.forest.wire hg hp
  obtain rfl := Option.some.inj (hpipe.symm.trans hpipe')
  obtain rfl := hw.unique hj.runs
  rcases htouch with ht | ht
  · exact hfree p f hf (hsender.symm.trans ht)
  · exact hfree c g hg (hreceiver.symm.trans ht)

/-- The node loses its pipes one by one, and the sides in `rest` have still to be gone through: they
are all that it lists, and those that it does not list went with their other side. -/
structure Unplugs (net : Network) (key : NodeKey) (D : Set Debt) (X : Set Handle)
    (E : NodeKey → NodeKey → Link → Prop) (R : NodeKey → NodeKey → Prop) (rest : List Handle)
    (mid : Network) : Prop where
  upheld : Upheld mid D X E R
  flows : mid.flows = net.flows
  plan : SamePlan net.layout mid.layout
  runs : ∀ fwd w, mid.layout.Runs fwd w → net.layout.Runs fwd w
  listed : ∀ k, mid.layout.Lists key k → k ∈ rest
  left : ∀ k ∈ rest, mid.layout.pipes.find? k = none ∨ mid.layout.Lists key k

/-- **One side is removed.** It was listed at the node, so the pipe was one of the node, and no flow
came by it. -/
theorem Unplugs.step {mid mid' : Network} {rest : List Handle}
    (hI : Unplugs net key D X E R (h :: rest) mid) (hl : Leads (removePipe h) mid () mid')
    (hE : ∀ s r l, touching key s r l → E s r l)
    (hfree : ∀ h f, net.flows.find? h = some f → f.node ≠ key) :
    Unplugs net key D X E R rest mid' := by
  obtain ⟨hU, hflows, hplan, hruns, hin, hout⟩ := hI
  have hrest : ∀ k ∈ rest, mid.layout.pipes.find? k = none ∨ mid.layout.Lists key k := fun k hk ↦
    hout k (List.mem_cons_of_mem _ hk)
  rcases hout h List.mem_cons_self with hdead | hlisted
  · -- the other side went first
    rw [removePipe, leads_pipe?_bind, show mid.pipes.find? h = none from hdead] at hl
    obtain ⟨-, rfl⟩ := leads_pure.1 hl
    refine ⟨hU, hflows, hplan, hruns, fun k hk ↦ ?_, hrest⟩
    refine (List.mem_cons.1 (hin k hk)).resolve_left ?_
    rintro rfl
    exact hU.inv.layout.live hk hdead
  · obtain ⟨fwd, back, a, b, s, r, hj, hh, htouch⟩ := hlisted.joins hU.inv.layout
    obtain ⟨hU', hflows', h', hsides, hlayout⟩ := upheld_removePipe hl hU hj hh
      (pipe_ne_of_free hU.inv (hflows ▸ hfree) hj htouch) (hE _ _ _ htouch)
    obtain ⟨x, y, hpair⟩ : ∃ x y, mid.layout.Pair h h' x y := by
      rcases hsides with ⟨rfl, rfl⟩ | ⟨rfl, rfl⟩
      · exact ⟨a, b, hj.pair⟩
      · exact ⟨b, a, hj.pair.symm⟩
    have hlisted' : ∀ k, mid'.layout.Lists key k ↔ mid.layout.Lists key k ∧ k ≠ h ∧ k ≠ h' := by
      intro k
      simp only [Layout.Lists, hlayout, Layout.mem_next_unplug, Layout.mem_prev_unplug]
      exact or_and_right.symm
    refine ⟨hU', hflows'.trans hflows, hplan.trans (hlayout ▸ .unplug _ h h'), fun fwd' w hw ↦ ?_,
      fun k hk ↦ ?_, fun k hk ↦ ?_⟩
    · rw [hlayout, Layout.runs_unplug hU.inv.layout hpair] at hw
      exact hruns fwd' w hw.1
    · obtain ⟨hk, hne, -⟩ := (hlisted' k).1 hk
      exact (List.mem_cons.1 (hin k hk)).resolve_left hne
    · rw [hlisted', hlayout]
      by_cases hne : k ≠ h ∧ k ≠ h'
      · rw [Layout.find?_unplug_of_ne hne]
        exact (hrest k hk).imp_right fun hk ↦ ⟨hk, hne⟩
      · left
        rw [Layout.unplug, Layout.without, Layout.without, Arena.find?_erase, Arena.find?_erase]
        grind

/-- **Disconnecting a node at which no flow is.** -/
theorem upheld_disconnect (hl : Leads (disconnect key) net () net') (hU : Upheld net D X E R)
    (hE : ∀ s r l, touching key s r l → E s r l)
    (hfree : ∀ h f, net.flows.find? h = some f → f.node ≠ key) :
    Upheld net' D X E R ∧ net'.flows = net.flows ∧ SamePlan net.layout net'.layout ∧
      net'.layout.next key = [] ∧ net'.layout.prev key = [] ∧
      ∀ fwd w, net'.layout.Runs fwd w → net.layout.Runs fwd w := by
  rw [disconnect, leads_node_bind] at hl
  obtain ⟨n, hn, hl⟩ := hl
  have hlists : ∀ k, net.layout.Lists key k ↔ k ∈ n.next ++ n.prev := fun k ↦ by
    rw [List.mem_append, Layout.Lists,
      show net.layout.next key = n.next from Network.tied_of_nodeAt? hn,
        show net.layout.prev key = n.prev from Network.tied_of_nodeAt? hn]
  have hrun : Unplugs net key D X E R [] net' := hl.forM (I := Unplugs net key D X E R)
    ⟨hU, rfl, .refl _, fun _ _ hw ↦ hw, fun k hk ↦ (hlists k).1 hk,
      fun k hk ↦ .inr ((hlists k).2 hk)⟩
    fun _ _ _ _ _ hI hstep ↦ hI.step hstep hE hfree
  refine ⟨hrun.upheld, hrun.flows, hrun.plan, ?_, ?_, hrun.runs⟩
  · exact List.eq_nil_iff_forall_not_mem.2 fun k hk ↦ List.not_mem_nil (hrun.listed k (.inl hk))
  · exact List.eq_nil_iff_forall_not_mem.2 fun k hk ↦ List.not_mem_nil (hrun.listed k (.inr hk))

/-- **Removing the flows of a node**; the pipes that lead to it are owed. -/
theorem upheld_removeFlows (hl : Leads (removeFlows key) net () net') (hU : Upheld net D X E R) :
    Upheld net' (D ∪ inbound net.layout key) X E R ∧ net'.layout = net.layout ∧
      (∀ h f, net'.flows.find? h = some f → f.node ≠ key) ∧
      SameRoots (· ≠ key) net.flows net'.flows := by
  rw [removeFlows, leads_node_bind] at hl
  obtain ⟨n, hn, hl⟩ := hl
  obtain ⟨hat, hall⟩ := at_of_mem_flows hU.inv hn
  obtain ⟨hI, hframe, hfewer, hnone, hroots⟩ := inv_removeEach (S := fun f ↦ f.node = key)
    (D := D ∪ inbound net.layout key) hl (fun f f' hway hf ↦ (Flow.node_eq hway).symm.trans hf)
    (fun h hh net₁ net₂ hstable hstep ↦
      .inl ⟨hstep, fun f hf ↦ ((hat h hh).stable hstable).node hf⟩)
    (fun f p fwd w hf _ _ hw hreceiver ↦ .inr ⟨p, fwd, w, rfl, hw, hreceiver.trans hf⟩)
    (hU.inv.mono fun _ ↦ .inl) hall
  exact ⟨hU.propagate hI hframe.layout, hframe.layout, hnone,
    fun h f' hf' _ ↦ hfewer h f' hf', hroots⟩

/-- **A node without flows and pipes**: what was owed for the pipes to it is void. -/
theorem upheld_isolate {mid : Network} (hremove : Leads (removeFlows key) net () mid)
    (hdisconnect : Leads (disconnect key) mid () net') (hU : Upheld net D X E R)
    (hE : ∀ s r l, touching key s r l → E s r l) :
    Upheld net' D X E R ∧ SamePlan net.layout net'.layout ∧ net'.layout.next key = [] ∧
      net'.layout.prev key = [] ∧ (∀ h f, net'.flows.find? h = some f → f.node ≠ key) ∧
      SameRoots (· ≠ key) net.flows net'.flows := by
  obtain ⟨hUmid, hlayout, hfree, hroots⟩ := upheld_removeFlows hremove hU
  obtain ⟨hU', hflows, hplan, hnext, hprev, hruns⟩ := upheld_disconnect hdisconnect hUmid hE hfree
  refine ⟨{ hU' with inv := hU'.inv.withSound (hU'.inv.sound.voidPipes ?_) },
    hlayout ▸ hplan, hnext, hprev, hflows ▸ hfree, hroots.trans (.of_eq hflows)⟩
  rintro e (he | ⟨h, fwd, w, rfl, hw, hreceiver⟩) hlive
  · exact he
  · obtain ⟨f, w', -, hw', -⟩ := hlive h fwd rfl
    obtain rfl := hw.unique (hlayout ▸ hruns fwd w' hw')
    obtain ⟨back, a, b, s, r, hj, rfl⟩ := hU'.inv.layout.joins hw'
    have hmem := hj.prev
    rw [show b.node = key from hreceiver, hprev] at hmem
    exact absurd hmem List.not_mem_nil

/-! ### Links

Along a link the code builds a pipe and sends flows down it before the next one is built. So here
the invariant holds between pipes, with nothing owed. -/

variable {l : Link} {s r : Node} {P : NodeKey → NodeKey → Prop} {K : NodeKey → Prop}

/-- A node that was read off earlier is still there, up to what does not matter. -/
theorem core?_of_plan (hplan : SamePlan L net.layout) (hnodup : (L.cores.map Core.key).Nodup)
    (hs : s.core ∈ L.cores) {n : Node} (hn : net.nodeAt? s.key = some n) : n.core = s.core := by
  have hcore := Layout.core?_of_nodeAt? hn
  rw [Layout.core?, hplan.cores] at hcore
  exact Option.some.inj (hcore.symm.trans (Layout.core?_of_mem (n := s.core) hnodup hs))

/-- What is built between two nodes along a link may be built. -/
theorem builds_along {s' r' : Node} {pattern : Pattern}
    (hnodup : (net.layout.cores.map Core.key).Nodup) (hs : s.core ∈ net.layout.cores)
    (hr : r.core ∈ net.layout.cores) (hout : l.source ∈ s.outPorts.toList)
    (hin : l.target ∈ r.inPorts.toList) (hlink : l ∈ net.layout.links)
    (hs' : net.nodeAt? s.key = some s') (hr' : net.nodeAt? r.key = some r')
    (ho : r'.overlap s'.sends = .ok (some pattern)) :
    net.layout.Builds ⟨s.key, l.source, r.key, l.target, pattern⟩ := by
  have hsends : s'.sends = s.sends := congrArg Core.sends (core?_of_plan (.refl _) hnodup hs hs')
  have haccepts : r'.accepts = r.accepts :=
    congrArg Core.accepts (core?_of_plan (.refl _) hnodup hr hr')
  obtain ⟨a, ha, hx⟩ := (Node.of_overlap ho).1 pattern rfl
  exact ⟨s.core, r.core, a, Layout.core?_of_mem (n := s.core) hnodup hs,
    Layout.core?_of_mem (n := r.core) hnodup hr, hout, hin, hlink, haccepts.symm.trans ha,
    fun x ↦ (hx x).trans (by rw [hsends]; rfl)⟩

/-- Along the link, pipes are missing between the pairs of nodes, besides what `E` leaves out. -/
def unjoined (l : Link) (E : NodeKey → NodeKey → Link → Prop) (P : NodeKey → NodeKey → Prop) :
    NodeKey → NodeKey → Link → Prop :=
  fun s r l' ↦ E s r l' ∨ l' = l ∧ P s r

/-- The sender is one of these. -/
def sentBy (ss : List Node) : NodeKey → NodeKey → Prop := fun s' _ ↦ ∃ s ∈ ss, s.key = s'

/-- The sender is one of the first, or the node, and then the receiver is one of the others. -/
def sentTo (ss : List Node) (s : Node) (rs : List Node) : NodeKey → NodeKey → Prop := fun s' r' ↦
  sentBy ss s' r' ∨ s' = s.key ∧ ∃ r ∈ rs, r.key = r'

/-- Between nodes that have nothing in common nothing is missing. -/
theorem wired_of_overlap {s' r' : Node} (hnodup : (net.layout.cores.map Core.key).Nodup)
    (hs : s.core ∈ net.layout.cores) (hr : r.core ∈ net.layout.cores)
    (hs' : net.nodeAt? s.key = some s') (hr' : net.nodeAt? r.key = some r')
    (ho : r'.overlap s'.sends = .ok none)
    (hw : net.layout.Wired (unjoined l E fun s' r' ↦ P s' r' ∨ s' = s.key ∧ r' = r.key)) :
    net.layout.Wired (unjoined l E P) := by
  have hsends : s'.sends = s.sends := congrArg Core.sends (core?_of_plan (.refl _) hnodup hs hs')
  have haccepts : r'.accepts = r.accepts :=
    congrArg Core.accepts (core?_of_plan (.refl _) hnodup hr hr')
  intro n hn m hm q hq p hp hl hnot a x ha hax hnx
  by_cases he : n.key = s.key ∧ m.key = r.key
  · obtain rfl : n = s.core := by
      have := Layout.core?_of_mem hnodup hn
      rw [he.1] at this
      exact Option.some.inj (this.symm.trans (Layout.core?_of_mem (n := s.core) hnodup hs))
    obtain rfl : m = r.core := by
      have := Layout.core?_of_mem hnodup hm
      rw [he.2] at this
      exact Option.some.inj (this.symm.trans (Layout.core?_of_mem (n := r.core) hnodup hr))
    obtain ⟨q', hq'⟩ := (Node.of_overlap ho).2 a x (haccepts.trans ha) hax (hsends ▸ hnx)
    exact absurd hq' (by simp)
  · refine hw n hn m hm q hq p hp hl (fun hE ↦ hnot (hE.imp_right fun hE ↦ ⟨hE.1, ?_⟩)) a x
      ha hax hnx
    exact hE.2.resolve_right he

/-- **Joining two nodes along a link**, after which nothing is missing between them. -/
theorem upheld_joinAlong (hl : Leads (joinAlong l s.key r.key) net () net')
    (hU : Upheld net D X (unjoined l E fun s' r' ↦ P s' r' ∨ s' = s.key ∧ r' = r.key) R)
    (hs : s.core ∈ net.layout.cores) (hr : r.core ∈ net.layout.cores)
    (hout : l.source ∈ s.outPorts.toList) (hin : l.target ∈ r.inPorts.toList)
    (hlink : l ∈ net.layout.links) :
    Upheld net' D X (unjoined l E P) R ∧ SamePlan net.layout net'.layout ∧
      SameRoots K net.flows net'.flows := by
  have hnodup := hU.inv.layout.nodup
  rw [joinAlong, leads_node_bind] at hl
  obtain ⟨s', hs', hl⟩ := hl
  rw [leads_node_bind] at hl
  obtain ⟨r', hr', hl⟩ := hl
  rw [leads_check_bind] at hl
  obtain ⟨o, ho, hl⟩ := hl
  cases o with
  | none =>
    obtain ⟨-, rfl⟩ := leads_pure.1 hl
    exact ⟨{ hU with wired := wired_of_overlap hnodup hs hr hs' hr' ho hU.wired }, .refl _,
      .refl _ _⟩
  | some pattern =>
    have hbuild := builds_along hnodup hs hr hout hin hlink hs' hr' ho
    obtain ⟨fwd, mid, hadd, hsend⟩ := hl.bind
    have hUmid := upheld_addPipe (C := D ∪ {e | ∃ h, e = .pending h fwd}) (S := unjoined l E P)
      hadd hU hbuild (fun _ ↦ .inl) (by
        rintro s' r' l' (he | ⟨rfl, hP | ⟨rfl, rfl⟩⟩)
        · exact .inl (.inl he)
        · exact .inl (.inr ⟨rfl, hP⟩)
        · exact .inr ⟨rfl, rfl, rfl⟩) fun h _ _ _ ↦ .inr ⟨h, rfl⟩
    obtain ⟨rfl, hlayout, hflows, -⟩ := hadd.addPipe hbuild
    have hrun : mid.layout.Runs net.pipes.nextHandle
        ⟨s.key, l.source, r.key, l.target, pattern⟩ := by
      rw [hlayout, Layout.runs_plug hU.inv.layout hbuild]
      exact .inr ⟨rfl, rfl⟩
    obtain ⟨hI', hframe⟩ := inv_sendFlows hsend hUmid.inv hrun rfl
    exact ⟨hUmid.propagate hI' hframe.layout,
      (SamePlan.plug _ _).trans (.of_eq (hframe.layout.trans hlayout)),
      (SameRoots.of_eq hflows).trans hframe.sameRoots⟩

/-- The first sender is missing pipes to receivers only. -/
theorem wired_sentTo {base : Network} {rest : List Node}
    (hcores : net.layout.cores = base.layout.cores)
    (hw : net.layout.Wired (unjoined l E (sentBy (s :: rest)))) :
    net.layout.Wired (unjoined l E (sentTo rest s (base.receiversAt l.target))) := by
  intro n hn m hm q hq p hp hl hnot a x ha hax hnx
  refine hw n hn m hm q hq p hp hl (fun he ↦ hnot (he.imp_right fun he ↦ ⟨he.1, ?_⟩)) a x ha hax hnx
  clear hnot
  obtain ⟨rfl, s', hs', hkey⟩ := he
  rcases List.mem_cons.1 hs' with rfl | hs'
  · rw [hcores] at hm
    obtain ⟨r, hr, rfl⟩ := List.mem_map.1 hm
    exact .inr ⟨hkey.symm, r, Network.mem_receiversAt.2 ⟨hr, hp⟩, rfl⟩
  · exact .inl ⟨s', hs', hkey⟩

/-- **Joining one sender to all receivers**, as they were to begin with. -/
theorem upheld_joinSender {base : Network} {rest : List Node}
    (hl : Leads ((base.receiversAt l.target).forM fun r ↦ joinAlong l s.key r.key) net () net')
    (hU : Upheld net D X (unjoined l E (sentBy (s :: rest))) R)
    (hplan : SamePlan base.layout net.layout) (hs : s ∈ base.sendersAt l.source)
    (hlink : l ∈ base.links) :
    Upheld net' D X (unjoined l E (sentBy rest)) R ∧ SamePlan base.layout net'.layout ∧
      SameRoots K net.flows net'.flows := by
  obtain ⟨hs, hout⟩ := Network.mem_sendersAt.1 hs
  have hscore : s.core ∈ base.layout.cores := List.mem_map_of_mem hs
  obtain ⟨hU', hrest⟩ := hl.forM
    (I := fun rs mid ↦ Upheld mid D X (unjoined l E (sentTo rest s rs)) R ∧
      SamePlan base.layout mid.layout ∧ SameRoots K net.flows mid.flows)
    ⟨{ hU with wired := wired_sentTo hplan.cores hU.wired }, hplan, .refl _ _⟩
    fun r rs mid mid' hr ⟨hUmid, hplan, hroots⟩ hstep ↦ by
    obtain ⟨hr, hin⟩ := Network.mem_receiversAt.1 hr
    have hrcore : r.core ∈ base.layout.cores := List.mem_map_of_mem hr
    have hUsplit : Upheld mid D X
        (unjoined l E fun s' r' ↦ sentTo rest s rs s' r' ∨ s' = s.key ∧ r' = r.key) R := by
      refine { hUmid with wired := hUmid.wired.mono fun s' r' l' he ↦ he.imp_right ?_ }
      rintro ⟨hll, he | ⟨hs', r₁, hr₁, hr'⟩⟩
      · exact ⟨hll, .inl (.inl he)⟩
      · rcases List.mem_cons.1 hr₁ with rfl | hr₁
        · exact ⟨hll, .inr ⟨hs', hr'.symm⟩⟩
        · exact ⟨hll, .inl (.inr ⟨hs', r₁, hr₁, hr'⟩)⟩
    obtain ⟨hU', hplan', hroots'⟩ := upheld_joinAlong hstep hUsplit (hplan.cores ▸ hscore)
      (hplan.cores ▸ hrcore) hout hin (hplan.links ▸ hlink)
    exact ⟨hU', hplan.trans hplan', hroots.trans hroots'⟩
  refine ⟨{ hU' with wired := hU'.wired.mono ?_ }, hrest⟩
  rintro s' r' l' (he | ⟨hll, he | ⟨-, r, hr, -⟩⟩)
  · exact .inl he
  · exact .inr ⟨hll, he⟩
  · exact absurd hr List.not_mem_nil

/-- **Connecting along a new link.** -/
theorem upheld_connectLink (hl : Leads (connectLink l) net () net')
    (hU : Upheld net D X (fun s r l' ↦ E s r l' ∨ l' = l) R) (hlink : l ∈ net.links) :
    Upheld net' D X E R ∧ SamePlan net.layout net'.layout ∧ SameRoots K net.flows net'.flows := by
  rw [connectLink, leads_network_bind] at hl
  simp only [Network.forM_sendersAt hU.inv.layout, Network.forM_receiversAt hU.inv.layout] at hl
  -- only the nodes that can send by the port of the link are missing pipes
  have hwired : net.layout.Wired (unjoined l E (sentBy (net.sendersAt l.source))) := by
    intro n hn m hm q hq p hp hl' hnot a x ha hax hnx
    refine hU.wired n hn m hm q hq p hp hl' (fun he ↦ hnot (he.imp_right fun hll ↦ ⟨hll, ?_⟩))
      a x ha hax hnx
    obtain ⟨s, hs, rfl⟩ := List.mem_map.1 hn
    obtain rfl := hll
    exact ⟨s, Network.mem_sendersAt.2 ⟨hs, hq⟩, rfl⟩
  obtain ⟨hU', hrest⟩ := hl.forM
    (I := fun rest mid ↦ Upheld mid D X (unjoined l E (sentBy rest)) R ∧
      SamePlan net.layout mid.layout ∧ SameRoots K net.flows mid.flows)
    ⟨{ hU with wired := hwired }, .refl _, .refl _ _⟩
    fun s rest mid mid' hs ⟨hUmid, hplan, hroots⟩ hstep ↦ by
    obtain ⟨hU', hplan', hroots'⟩ := upheld_joinSender hstep hUmid hplan hs hlink
    exact ⟨hU', hplan', hroots.trans hroots'⟩
  refine ⟨{ hU' with wired := hU'.wired.mono ?_ }, hrest⟩
  rintro s' r' l' (he | ⟨-, s, hs, -⟩)
  · exact he
  · exact absurd hs List.not_mem_nil

/-- The wire runs along the link. -/
def Along (l : Link) (w : Wire) : Prop := w.outPort = l.source ∧ w.inPort = l.target

/-- **Removing the flows that came by a pipe** from the node that it leads to. The flows that they
came from owe the pipe. -/
theorem inv_removeCame {fwd : Handle} {w : Wire} {r : Node}
    (hl : Leads (r.flows.forM fun h ↦ do
      if ((← flow? h).any fun f ↦ f.pipe == some fwd) then removeFlow h) net () net')
    (hI : Inv net ∅ D) (hr : net.nodeAt? w.receiver = some r) (hw : net.layout.Runs fwd w) :
    Inv net' ∅ (D ∪ {e | ∃ h, e = .pending h fwd}) ∧ Frame 0 net net' ∧ Fewer net.flows net'.flows ∧
      (∀ h f, net'.flows.find? h = some f → ¬ f.pipe = some fwd) ∧
      ∀ h f, net.flows.find? h = some f → f.parent = none → ¬ f.pipe = some fwd →
        ∃ f', net'.flows.find? h = some f' ∧ f.Alike f' := by
  obtain ⟨-, hall⟩ := at_of_mem_flows hI hr
  have hbody : ∀ h ∈ r.flows, ∀ net₁ net₂, Stable net.flows net₁.flows →
      Leads (do if ((← flow? h).any fun f ↦ f.pipe == some fwd) then removeFlow h) net₁ () net₂ →
      Leads (removeFlow h) net₁ () net₂ ∧ (∀ g, net₁.flows.find? h = some g → g.pipe = some fwd) ∨
        net₂ = net₁ ∧ ∀ g, net₁.flows.find? h = some g → ¬ g.pipe = some fwd := by
    intro h _ net₁ net₂ _ hstep
    rw [leads_flow?_bind] at hstep
    rcases hstep.ite with ⟨hany, hrun⟩ | ⟨hany, hrun⟩
    · refine .inl ⟨hrun, fun g hg ↦ ?_⟩
      simpa [hg] using hany
    · refine .inr ⟨(leads_pure.1 hrun).2, fun g hg ↦ ?_⟩
      simpa [hg] using hany
  -- what came by the pipe is where it leads
  have hthere : ∀ h g, net.flows.find? h = some g → g.pipe = some fwd → h ∈ r.flows := by
    intro h g hg hpipe
    cases hp : g.parent with
    | none => exact absurd ((hI.forest.root h g hg hp).2.1.symm.trans hpipe) (by simp)
    | some p =>
      obtain ⟨_, fwd', w', -, hpipe', hw', -, hreceiver, -⟩ := hI.forest.wire hg hp
      obtain rfl := Option.some.inj (hpipe.symm.trans hpipe')
      obtain rfl := hw'.unique hw
      exact hall h g hg hreceiver.symm
  exact inv_removeEach (S := fun g ↦ g.pipe = some fwd) hl
    (fun f f' hway hf ↦ (Flow.pipe_eq hway).symm.trans hf) hbody
    (fun f p fwd' w hf _ hpipe _ _ ↦ .inr ⟨p, by rw [Option.some.inj (hpipe.symm.trans hf)]⟩)
    (hI.mono fun _ ↦ .inl) hthere

/-- A pipe is left alone if it does not run along the link, and otherwise it goes after the flows
that came by it. -/
theorem Leads.cutPipe {fwd : Handle} {a b : Pipe} (hl : Leads (Engine.cutPipe l fwd) net () net')
    (ha : net.pipes.find? fwd = some a) (hb : net.pipes.find? a.reverse = some b) :
    (¬ Along l ⟨a.node, a.port, b.node, b.port, a.pattern⟩ ∧ net' = net) ∨
    (⟨a.port, b.port⟩ : Link) = l ∧
      ∃ r mid, net.nodeAt? b.node = some r ∧
        Leads (r.flows.forM fun h ↦ do
          if ((← flow? h).any fun f ↦ f.pipe == some fwd) then Engine.removeFlow h) net () mid ∧
        Leads (Engine.removePipe fwd) mid () net' := by
  rw [Engine.cutPipe, leads_pipe_bind] at hl
  obtain ⟨a', ha', hl⟩ := hl
  obtain rfl := Option.some.inj (ha.symm.trans ha')
  rcases hl.ite with ⟨hport, hl⟩ | ⟨hport, hl⟩
  · exact .inl ⟨fun hal ↦ hport hal.1, (leads_pure.1 hl).2⟩
  rw [leads_pipe_bind] at hl
  obtain ⟨b', hb', hl⟩ := hl
  obtain rfl := Option.some.inj (hb.symm.trans hb')
  rcases hl.ite with ⟨hport', hl⟩ | ⟨hport', hl⟩
  · exact .inl ⟨fun hal ↦ hport' hal.2, (leads_pure.1 hl).2⟩
  rw [leads_node_bind] at hl
  obtain ⟨r, hr, hl⟩ := hl
  obtain ⟨⟨⟩, mid, hremove, hrest⟩ := hl.bind
  simp only [ne_eq, not_not] at hport hport'
  exact .inr ⟨by rw [hport, hport'], r, mid, hr, hremove, hrest⟩

/-- **Cutting a pipe, if it runs along the link**, with the flows that came by it. -/
theorem upheld_cutPipe {fwd : Handle} (hl : Leads (cutPipe l fwd) net () net')
    (hU : Upheld net D X E R) (hE : ∀ s r, E s r l) (hfwd : fwd ∈ net.layout.next key) :
    Upheld net' D X E R ∧ SamePlan net.layout net'.layout ∧
      (∀ k w, net'.layout.Runs k w → net.layout.Runs k w ∧ (k = fwd → ¬ Along l w)) ∧
      (∀ k ∈ net.layout.next key, k ≠ fwd → k ∈ net'.layout.next key) ∧
      SameRoots K net.flows net'.flows := by
  obtain ⟨back, a, b, n, m, hj, rfl⟩ := hU.inv.layout.next key fwd hfwd
  rcases hl.cutPipe hj.front (hj.reverse ▸ hj.rear) with
    ⟨hnot, rfl⟩ | ⟨hlink, r, mid, hr, hremove, hrest⟩
  · refine ⟨hU, .refl _, fun k w hw ↦ ⟨hw, ?_⟩, fun _ hk _ ↦ hk, .refl _ _⟩
    rintro rfl
    exact hw.unique hj.runs ▸ hnot
  obtain ⟨hI, hframe, hfewer, hnone, hkept⟩ := inv_removeCame hremove hU.inv hr hj.runs
  have hUmid := hU.propagate hI hframe.layout
  have hjmid : mid.layout.Joins fwd back a b n m := hframe.layout ▸ hj
  obtain ⟨hU', hflows, h', hsides, hlayout⟩ := upheld_removePipe hrest hUmid hjmid (.inl rfl)
    (fun c g hg _ ↦ hnone c g hg) (hlink ▸ hE _ _)
  obtain rfl : h' = back := by
    rcases hsides with ⟨-, he⟩ | ⟨he, -⟩
    · exact he
    · exact absurd he hjmid.distinct
  have hruns : ∀ k w, (mid.layout.unplug fwd h').Runs k w ↔ _ := fun k w ↦
    Layout.runs_unplug hUmid.inv.layout hjmid.pair
  rw [hframe.layout] at hlayout hruns
  refine ⟨{ hU' with inv := hU'.inv.withSound (hU'.inv.sound.voidPipes ?_) },
    hlayout ▸ .unplug _ _ _, fun k w hw ↦ ?_, fun k hk hne ↦ ?_, .trans ?_ (.of_eq hflows)⟩
  · rintro e (he | ⟨h, rfl⟩) hlive
    · exact he
    · obtain ⟨f, w, -, hw, -⟩ := hlive h fwd rfl
      rw [hlayout, hruns] at hw
      exact absurd rfl hw.2.1
  · rw [hlayout, hruns] at hw
    exact ⟨hw.1, fun he ↦ absurd he hw.2.1⟩
  · -- the other side of the pipe is no forward side
    rw [hlayout, Layout.mem_next_unplug]
    refine ⟨hk, hne, ?_⟩
    rintro rfl
    exact hU.inv.layout.apart a.node b.node k hk hj.prev
  · refine ⟨fun h f' hf' _ ↦ hfewer h f' hf', fun h f hf hroot _ ↦ hkept h f hf hroot ?_⟩
    rw [(hU.inv.forest.root h f hf hroot).2.1]
    simp

/-- Pipes along the link are left at the senders in `rest` only, and at the node with the key, where
the forward sides in `fs` have still to be gone through. -/
structure Unlinks (net : Network) (l : Link) (D : Set Debt) (X : Set Handle)
    (E : NodeKey → NodeKey → Link → Prop) (R : NodeKey → NodeKey → Prop) (K : NodeKey → Prop)
    (rest : List Node) (key : NodeKey) (fs : List Handle) (mid : Network) : Prop where
  upheld : Upheld mid D X E R
  plan : SamePlan net.layout mid.layout
  left : ∀ fwd w, mid.layout.Runs fwd w → Along l w → (∃ s ∈ rest, s.key = w.sender) ∨ fwd ∈ fs
  nodup : fs.Nodup
  listed : ∀ fwd ∈ fs, fwd ∈ mid.layout.next key
  roots : SameRoots K net.flows mid.flows

/-- One forward side has been gone through. -/
theorem Unlinks.cut {mid mid' : Network} {rest : List Node} {fwd : Handle} {fs : List Handle}
    (hI : Unlinks net l D X E R K rest key (fwd :: fs) mid) (hl : Leads (cutPipe l fwd) mid () mid')
    (hE : ∀ s r, E s r l) : Unlinks net l D X E R K rest key fs mid' := by
  obtain ⟨hU, hplan, hleft, hnodup, hlisted, hroots⟩ := hI
  obtain ⟨hfresh, hnodup⟩ := List.nodup_cons.1 hnodup
  obtain ⟨hU', hplan', hruns, hkept, hroots'⟩ :=
    upheld_cutPipe hl hU hE (hlisted fwd List.mem_cons_self)
  refine ⟨hU', hplan.trans hplan', fun k w hw hal ↦ ?_, hnodup, fun k hk ↦ ?_, hroots.trans hroots'⟩
  · obtain ⟨hw, hne⟩ := hruns k w hw
    exact (hleft k w hw hal).imp_right fun hk ↦
      (List.mem_cons.1 hk).resolve_left fun he ↦ hne he hal
  · refine hkept k (hlisted k (List.mem_cons_of_mem _ hk)) ?_
    rintro rfl
    exact hfresh hk

/-- One sender has been gone through. -/
theorem Unlinks.sender {mid mid' : Network} {rest : List Node}
    (hI : Unlinks net l D X E R K (s :: rest) key [] mid)
    (hl : Leads (do (← node s.key).next.forM (Engine.cutPipe l)) mid () mid')
    (hE : ∀ s r, E s r l) : Unlinks net l D X E R K rest key [] mid' := by
  rw [leads_node_bind] at hl
  obtain ⟨n, hn, hl⟩ := hl
  have hnext : mid.layout.next s.key = n.next := Network.tied_of_nodeAt? hn
  have hend : Unlinks net l D X E R K rest s.key [] mid' := by
    refine hl.forM (I := Unlinks net l D X E R K rest s.key) ?_ fun _ _ _ _ _ hI hcut ↦
      hI.cut hcut hE
    refine { hI with
      left := fun fwd w hw hal ↦ ?_
      nodup := hnext ▸ hI.upheld.inv.layout.once s.key
      listed := fun fwd hfwd ↦ hnext ▸ hfwd }
    obtain ⟨s', hs', hkey⟩ := (hI.left fwd w hw hal).resolve_right List.not_mem_nil
    rcases List.mem_cons.1 hs' with rfl | hs'
    · right
      obtain ⟨-, -, -, -, -, hmem, -⟩ := hI.upheld.inv.layout.ends hw
      rwa [← hkey, hnext] at hmem
    · exact .inl ⟨s', hs', hkey⟩
  exact { hend with listed := by rintro fwd ⟨⟩ }

/-- **Disconnecting along a link**, after which no pipe runs along it. -/
theorem upheld_disconnectLink (hl : Leads (disconnectLink l) net () net')
    (hU : Upheld net D X E R) (hE : ∀ s r, E s r l) :
    Upheld net' D X E R ∧ SamePlan net.layout net'.layout ∧
      (∀ fwd w, net'.layout.Runs fwd w → ¬ Along l w) ∧ SameRoots K net.flows net'.flows := by
  rw [disconnectLink, leads_network_bind, Network.forM_sendersAt hU.inv.layout] at hl
  have hrun : Unlinks net l D X E R K [] 0 [] net' := by
    refine hl.forM (I := fun rest ↦ Unlinks net l D X E R K rest 0 [])
      ⟨hU, .refl _, fun fwd w hw hal ↦ .inl ?_, List.nodup_nil, (by rintro fwd ⟨⟩), .refl _ _⟩
      fun _ _ _ _ _ hI hstep ↦ hI.sender hstep hE
    obtain ⟨n, -, -, hn, -, -, hout, -⟩ := hU.inv.layout.ends hw
    obtain ⟨s, hs, rfl⟩ := exists_nodeAt? hn
    obtain ⟨hs, hkey⟩ := nodeAt?_eq_some hs
    exact ⟨s, Network.mem_sendersAt.2 ⟨hs, hal.1 ▸ hout⟩, hkey⟩
  refine ⟨hrun.upheld, hrun.plan, fun fwd w hw hal ↦ ?_, hrun.roots⟩
  rcases hrun.left fwd w hw hal with ⟨s, hs, -⟩ | hfwd
  · exact List.not_mem_nil hs
  · exact List.not_mem_nil hfwd

end Engine

end HeaderFlow
