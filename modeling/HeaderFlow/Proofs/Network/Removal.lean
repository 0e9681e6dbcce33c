import HeaderFlow.Proofs.Network.ProbeChanges

/-!
# What removing leaves, exactly

When a link, a source or a probe is removed, flows go with everything that came from them, and pipes
with both sides. `Network.Remains` says that this is all: **every other flow, pipe and node is as it
was, except that what is gone is gone from the lists it was on**, and from the notes of the probes.
Influences, tables and settings are not touched at all.

That nothing goes that need not was shown for the walk itself (`Network.Loses`). That everything
goes that has to is read off the network at the end: a flow is there only if the flow is that it
came from, it came by a pipe that is there, and pipes are where links are.

## Two bounds meet

Each list is bounded from both sides. By `Loses` the new list is a sublist of the old one that
contains all that is not described; by the invariant of the network at the end it contains nothing
that is described. A list without repetitions between the two is determined: it is the old one,
filtered (`eq_filter_of_sublist`). This gives equations for flows, pipes, nodes and notes, and the
records are treated alike: the directory and the two records of the links are the old ones without
what is gone (`Directory.Keeps`, `Topology.Keeps`).

`Network.Tidy` is what is used of both networks. It is known of networks that were reached, which is
why the theorem is about changes that came to their end.
-/

namespace HeaderFlow

open Engine

variable {net net' mid : Network} {h g c k : Handle} {f f' : Flow} {n m : Node} {p q : Probe}
  {key : NodeKey} {l : Link} {spaces : NodeKey → Option Space} {S : Flow → Prop}
  {lost cut : Handle → Prop} {stays : NodeKey → Bool} {links : List Link}

/-! ### What is left

The network that is left is described by what names flows and pipes in it, so that the description
can be used for whichever flows and pipes are gone. -/

/-- The notes about the flows that are left. -/
def Probe.only (p : Probe) (lives : Handle → Bool) : Probe :=
  { p with
    results := p.results.filter fun e ↦ lives e.1
    deciding := (p.results.filter fun e ↦ lives e.1).countP fun e ↦ p.decides e.2 }

/-- The node with those of its pipes and flows that are there in the network. -/
def Node.only (net : Network) (n : Node) : Node :=
  { n with
    role := match n.role with
      | .probe p => .probe (p.only net.flows.contains)
      | role => role
    next := n.next.filter net.pipes.contains
    prev := n.prev.filter net.pipes.contains
    flows := n.flows.filter net.flows.contains }

/-- The second directory is the first with those of its nodes that stay. -/
structure Directory.Keeps (stays : NodeKey → Bool) (d d' : Directory) : Prop where
  ids : ∀ (id : NodeId) key, d'.ids[id]? = some key ↔ d.ids[id]? = some key ∧ stays key = true
  entrances : ∀ p, d'.entrances.listed p = (d.entrances.listed p).filter stays
  exits : ∀ q, d'.exits.listed q = (d.exits.listed q).filter stays
  sources : d'.sources = d.sources.filter stays
  probes : d'.probes = d.probes.filter stays

/-- The second topology is the first with some of its links, from both sides. -/
structure Topology.Keeps (links : List Link) (t t' : Topology) : Prop where
  targets : ∀ q, t'.targets.listed q = (t.targets.listed q).filter fun p ↦ ⟨q, p⟩ ∈ links
  origins : ∀ p, t'.origins.listed p = (t.origins.listed p).filter fun q ↦ ⟨q, p⟩ ∈ links
  links : t'.links = links

/-- The second network is what is left of the first without the flows that are lost and the pipes
that are cut. -/
structure Network.Remains (lost cut : Handle → Prop) (stays : NodeKey → Bool) (links : List Link)
    (net net' : Network) : Prop where
  flows : ∀ h f', net'.flows.find? h = some f' ↔ ∃ f, net.flows.find? h = some f ∧ ¬ lost h ∧
    f' = { f with children := f.children.filter net'.flows.contains }
  pipes : ∀ h a, net'.pipes.find? h = some a ↔ net.pipes.find? h = some a ∧ ¬ cut h
  nodes : net'.nodes = (net.nodes.filter fun n ↦ stays n.key).map (Node.only net')
  directory : net.directory.Keeps stays net'.directory
  topology : net.topology.Keeps links net'.topology
  outline : net' = { net with
    nodes := net'.nodes
    directory := net'.directory
    topology := net'.topology
    pipes := net'.pipes
    flows := net'.flows
    lastEvent := net'.lastEvent
    budget := net'.budget }

/-- Which flows are lost may be said in another way. -/
theorem Network.Remains.congr {lost' : Handle → Prop} (hr : net.Remains lost cut stays links net')
    (hlost : ∀ h, lost h ↔ lost' h) : net.Remains lost' cut stays links net' :=
  funext (fun h ↦ propext (hlost h)) ▸ hr

/-- A node stays the same node. -/
theorem Node.core_only (net : Network) (n : Node) : (n.only net).core = n.core := by
  cases hrole : n.role <;> simp [Node.only, Node.core, hrole, Role.kind]

/-! ### Where nodes and links are found

The directory and the records of the links lose exactly what is struck out. Whether a node stays is
asked of its key, so that the lists at ports are filtered by one test. -/

/-- Nothing is gone if nothing was removed. -/
theorem Topology.Mirrored.keeps {t : Topology} (ht : t.Mirrored) : t.Keeps t.links t where
  targets q := (List.filter_eq_self.2 fun p hp ↦
    decide_eq_true (Topology.mem_links (l := ⟨q, p⟩) |>.2 hp)).symm
  origins p :=
    (List.filter_eq_self.2 fun q hq ↦ decide_eq_true (ht.mem_origins (l := ⟨q, p⟩) |>.1 hq)).symm
  links := rfl

/-- **A link that is removed is gone on both sides**, and nothing else is. -/
theorem Topology.Mirrored.keeps_cut {t : Topology} (ht : t.Mirrored) :
    t.Keeps (t.links.filter (· ≠ l)) (t.cut l) where
  targets q := by
    rw [Topology.cut, PortMap.listed_retract_eq_filter]
    refine List.filter_congr fun p hp ↦ decide_eq_decide.2 ?_
    have hmem : ⟨q, p⟩ ∈ t.links := Topology.mem_links.2 hp
    obtain ⟨q', p'⟩ := l
    simp only [List.mem_filter, hmem, true_and, decide_eq_true_eq, ne_eq, Link.mk.injEq,
      eq_comm (b := q)]
  origins p := by
    rw [Topology.cut, PortMap.listed_retract_eq_filter]
    refine List.filter_congr fun q hq ↦ decide_eq_decide.2 ?_
    have hmem : ⟨q, p⟩ ∈ t.links := ht.mem_origins.1 hq
    obtain ⟨q', p'⟩ := l
    simp only [List.mem_filter, hmem, true_and, decide_eq_true_eq, ne_eq, Link.mk.injEq,
      eq_comm (b := p), and_comm]
  links := ht.links_cut

namespace Registry

variable {r r' : Registry} {cores : List Core}

/-- Keys stay with their nodes. -/
theorem filter_map_stays (ms : List Core) :
    (ms.map Core.key).filter stays = (ms.filter fun n ↦ stays n.key).map Core.key :=
  List.filter_map ..

/-- A port lists those of its nodes that stay. -/
theorem Lists.keeps {m m' : PortMap NodeKey} {ports : Core → PortSet} (hm : Lists m ports cores)
    (hm' : Lists m' ports (cores.filter fun n ↦ stays n.key)) (p : Port) :
    m'.listed p = (m.listed p).filter stays := by
  rw [hm'.listed, hm.listed, filter_map_stays, List.filter_filter, List.filter_filter]
  simp only [Bool.and_comm]

/-- **What is found agrees with the nodes before and after**, so what stays is found as before. -/
theorem Agrees.keeps (hr : r.Agrees cores) (hr' : r'.Agrees (cores.filter fun n ↦ stays n.key))
    (hids : ∀ (id : NodeId) key, r'.directory.ids[id]? = some key ↔
      r.directory.ids[id]? = some key ∧ stays key = true) :
      r.directory.Keeps stays r'.directory where
  ids := hids
  entrances := hr.entrances.keeps hr'.entrances
  exits := hr.exits.keeps hr'.exits
  sources := by
    rw [hr'.sources, hr.sources, filter_map_stays, List.filter_filter, List.filter_filter]
    simp only [Bool.and_comm]
  probes := by
    rw [hr'.probes, hr.probes, filter_map_stays, List.filter_filter, List.filter_filter]
    simp only [Bool.and_comm]

end Registry

/-! ### Lists that lose entries

A list without repetitions is determined by its members and their order. These two lemmas turn two
bounds into an equation. -/

/-- What is left of a list without repetitions is what passes. -/
theorem eq_filter_of_sublist {α : Type} {l l' : List α} {b : α → Bool} (hsub : l'.Sublist l)
    (hnodup : l.Nodup) (hmem : ∀ a ∈ l, a ∈ l' ↔ b a = true) : l' = l.filter b := by
  induction hsub with
  | slnil => rfl
  | @cons l' l a hsub ih =>
    obtain ⟨hnew, hnodup⟩ := List.nodup_cons.1 hnodup
    have hout : ¬ b a = true := fun hb ↦ hnew (hsub.subset ((hmem a List.mem_cons_self).2 hb))
    rw [List.filter_cons_of_neg hout]
    exact ih hnodup fun a' ha' ↦ hmem a' (List.mem_cons_of_mem _ ha')
  | @cons_cons l' l a hsub ih =>
    obtain ⟨hnew, hnodup⟩ := List.nodup_cons.1 hnodup
    rw [List.filter_cons_of_pos ((hmem a List.mem_cons_self).1 List.mem_cons_self)]
    refine congrArg _ (ih hnodup fun a' ha' ↦ ?_)
    rw [← hmem a' (List.mem_cons_of_mem _ ha'), List.mem_cons, or_iff_right]
    rintro rfl
    exact hnew ha'

/-- A list is determined by another one, member by member. -/
theorem eq_map_of_forall₂ {α β : Type} {R : α → β → Prop} {as : List α} {bs : List β} {e : α → β}
    (h : List.Forall₂ R as bs) (he : ∀ a ∈ as, ∀ b ∈ bs, R a b → b = e a) : bs = as.map e := by
  induction h with
  | nil => rfl
  | cons hab _ ih =>
    rw [List.map_cons, he _ List.mem_cons_self _ List.mem_cons_self hab, ih fun a ha b hb ↦
      he a (List.mem_cons_of_mem _ ha) b (List.mem_cons_of_mem _ hb)]

/-! ### What a node lists -/

section

variable {O : Set Handle} {D : Set Debt} (hI : Inv net O D) (hn : n ∈ net.nodes)

include hI hn

theorem Inv.nodeAt?_key : net.nodeAt? n.key = some n :=
  Network.nodeAt?_of_mem (map_key_cores net ▸ hI.layout.nodup) hn

theorem Inv.roster_eq : net.roster n.key = n.flows := Network.tied_of_nodeAt? (hI.nodeAt?_key hn)

theorem Inv.next_eq : net.layout.next n.key = n.next := Network.tied_of_nodeAt? (hI.nodeAt?_key hn)

theorem Inv.prev_eq : net.layout.prev n.key = n.prev := Network.tied_of_nodeAt? (hI.nodeAt?_key hn)

/-- What a node lists as its flow is at the node. -/
theorem Inv.node_of_mem_flows (hh : h ∈ n.flows) (hf : net.flows.find? h = some f) :
    f.node = n.key := by
  obtain ⟨f', hf', hnode⟩ := hI.listed.only n.key h (hI.roster_eq hn ▸ hh)
  exact Option.some.inj (hf.symm.trans hf') ▸ hnode

/-- What a node lists as a side is its own. -/
theorem Inv.node_of_mem_pipes {a : Pipe} (hh : h ∈ n.next ++ n.prev)
    (ha : net.pipes.find? h = some a) : a.node = n.key := by
  rcases List.mem_append.1 hh with hh | hh
  · obtain ⟨_, a', _, _, _, hj, hnode⟩ := hI.layout.next n.key h (hI.next_eq hn ▸ hh)
    exact Option.some.inj (ha.symm.trans hj.front) ▸ hnode
  · obtain ⟨_, _, b, _, _, hj, hnode⟩ := hI.layout.prev n.key h (hI.prev_eq hn ▸ hh)
    exact Option.some.inj (ha.symm.trans hj.rear) ▸ hnode

end

/-- **A source has its root and no other flow.** -/
theorem Rooted.flows_eq (hrooted : Rooted net spaces) (hI : Inv net ∅ ∅) (hn : n ∈ net.nodes)
    (htype : n.type = .source) : ∃ root, n.flows = [root] := by
  have hkind := Node.type_eq_source_iff.1 htype
  have hcore := Layout.core?_of_nodeAt? (hI.nodeAt?_key hn)
  obtain ⟨root, f, hf, hp, hnode⟩ := hrooted.source n.core (List.mem_map_of_mem hn) hkind
  have hmem := hI.listed.all root f hf (Set.notMem_empty root)
  rw [hnode, show n.core.key = n.key from rfl, hI.roster_eq hn] at hmem
  refine ⟨root,
    List.perm_singleton.1 ((List.perm_ext_iff_of_nodup (hI.roster_eq hn ▸ hI.listed.nodup n.key)
    (List.nodup_singleton root)).2 fun h ↦ ?_)⟩
  rw [List.mem_singleton]
  constructor
  · intro hh
    obtain ⟨k, hk, hkey⟩ := hI.listed.only n.key h (hI.roster_eq hn ▸ hh)
    have hpk := (hI.forest.isRoot_iff hI.layout hk (hkey ▸ hcore)).2 hkind
    exact hrooted.unique root h f k hf hp hk hpk (hkey.trans hnode.symm)
  · rintro rfl
    exact hmem

/-! ### Tidy networks

What is used of a network before and after a removal. It holds of all networks that were reached,
the one after the removal included. -/

/-- Nothing is owed, pipes are what they should be, and probes know the flows. -/
structure Network.Tidy (net : Network) : Prop where
  inv : Inv net ∅ ∅
  exact : net.layout.Exact
  watched : net.Watched ∅ ∅ ∅

/-- **A network that is reached is tidy.** -/
theorem Network.Reached.tidy (hr : Reached net spaces) : net.Tidy :=
  ⟨hr.atRest.1.inv, hr.attained.orderly.exact, hr.attained.watched⟩

namespace Network.Tidy

/-- Every side belongs to a pipe, whose nodes are there. -/
theorem joins (ht : net.Tidy) {a : Pipe} (ha : net.pipes.find? h = some a) :
    ∃ fwd back a' b n m, net.layout.Joins fwd back a' b n m ∧
      (h = fwd ∧ a = a' ∨ h = back ∧ a = b) := by
  rcases ht.exact.listed h a ha with hmem | hmem
  · obtain ⟨back, a', b, n, m, hj, -⟩ := ht.exact.next _ _ hmem
    exact ⟨h, back, a', b, n, m, hj, .inl ⟨rfl, Option.some.inj (ha.symm.trans hj.front)⟩⟩
  · obtain ⟨fwd, a', b, n, m, hj, -⟩ := ht.exact.prev _ _ hmem
    exact ⟨fwd, h, a', b, n, m, hj, .inr ⟨rfl, Option.some.inj (ha.symm.trans hj.rear)⟩⟩

end Network.Tidy

/-! ### Everything goes that has to

A flow that is left in the end has its parent, and the pipe that it came by has both sides. So going
up from a flow below one that is gone leads to a contradiction, and a pipe whose link is gone has no
place to be. -/

/-- Above a flow that is left there are the flows that were above it. -/
theorem Arena.Descends.left {F F' : Arena Flow} (hd : F.Descends g h) (hF : Dwindles F F')
    (hparent : ∀ h f p, F'.find? h = some f → f.parent = some p → ∃ k, F'.find? p = some k)
    (hf' : F'.find? h = some f') : ∃ k, F'.find? g = some k := by
  induction hd generalizing f' with
  | refl => exact ⟨f', hf'⟩
  | step hf hp _ ih =>
    obtain ⟨f, hf₀, hway⟩ := hF.way hf'
    obtain rfl := Option.some.inj (hf.symm.trans hf₀)
    obtain ⟨k, hk⟩ := hparent _ f' _ hf' ((Flow.parent_eq hway).trans hp)
    exact ih hk

/-- **The flows that are left**, if none of those described is. -/
theorem Network.Tidy.find?_flows (ht : net.Tidy) (ht' : net'.Tidy)
    (hF : Dwindles net.flows net'.flows)
    (hkept : ∀ g k, net.flows.find? g = some k → net.flows.Spared S g →
      ∃ k', net'.flows.find? g = some k')
    (hnone : ∀ h f f', net.flows.find? h = some f → net'.flows.find? h = some f' → ¬ S f) :
    net'.flows.find? h = some f' ↔ ∃ f, net.flows.find? h = some f ∧ net.flows.Spared S h ∧
      f' = { f with children := f.children.filter net'.flows.contains } := by
  have hleft : ∀ {h f'}, net'.flows.find? h = some f' → ∃ f, net.flows.find? h = some f ∧
      f' = { f with children := f.children.filter net'.flows.contains } := by
    intro h f' hf'
    obtain ⟨f, cs, hf, hsub, rfl⟩ := hF h f' hf'
    refine ⟨f, hf, ?_⟩
    rw [eq_filter_of_sublist hsub (ht.inv.forest.nodup h f hf) fun c hc ↦ ?_]
    rw [Arena.contains_iff]
    constructor
    · intro hmem
      obtain ⟨k, hk, -⟩ := ht'.inv.forest.children h _ c hf' hmem
      exact ⟨k, hk⟩
    · rintro ⟨k', hk'⟩
      obtain ⟨k, hk, hway⟩ := hF.way hk'
      have hparent := ht.inv.kindred h f c k hf hc hk
      exact ht'.inv.forest.listed c k' h _ hk' (Set.notMem_empty c)
        ((Flow.parent_eq hway).trans hparent) hf'
  constructor
  · intro hf'
    obtain ⟨f, hf, heq⟩ := hleft hf'
    refine ⟨f, hf, fun g k hk hS hd ↦ ?_, heq⟩
    obtain ⟨k', hk'⟩ := hd.left hF (fun _ _ _ ↦ ht'.inv.forest.parent_live) hf'
    exact hnone g k k' hk hk' hS
  · rintro ⟨f, hf, hspared, rfl⟩
    obtain ⟨f', hf'⟩ := hkept h f hf hspared
    obtain ⟨f₀, hf₀, heq⟩ := hleft hf'
    obtain rfl := Option.some.inj (hf.symm.trans hf₀)
    exact heq ▸ hf'

/-- **A probe remembers the flows that are left.** -/
theorem Probe.Forgets.eq_only {F : Arena Flow} (hforgets : p.Forgets (fun h ↦ F.find? h = none) q)
    (hp : p.Counted) (hq : q.Knows ∅ F key ∅ ∅) : q = p.only F.contains := by
  have hresults : q.results = p.results.filter fun e ↦ F.contains e.1 := by
    refine eq_filter_of_sublist hforgets.results (.of_map Prod.fst hp.once) fun e he ↦ ?_
    rw [Arena.contains_iff]
    constructor
    · intro hmem
      obtain ⟨-, f, hf, -⟩ := hq.known e hmem
      exact ⟨f, hf⟩
    · rintro ⟨f, hf⟩
      by_contra hmem
      exact absurd ((hforgets.forgotten e he hmem).symm.trans hf) (by simp)
  have hmode : q.mode = p.mode := by rw [hforgets.same]
  have hdeciding : q.deciding = (p.results.filter fun e ↦ F.contains e.1).countP fun e ↦
      p.decides e.2 := by
    rw [hq.count, Probe.noted, hresults]
    refine List.countP_congr fun e _ ↦ ?_
    rw [Probe.decides, Probe.decides, hmode]
  rw [Probe.only, ← hdeciding, ← hresults]
  exact hforgets.same

section

variable (ht : net.Tidy) (ht' : net'.Tidy) (hn : n ∈ net.nodes) (hm : m ∈ net'.nodes)
  (hfades : n.Fades (fun h ↦ net'.flows.find? h = none) m)

include ht ht' hn hm hfades

/-- A node lists those of its pipes that are left. -/
theorem Node.Fades.pipes_eq_filter
    (hpipes : ∀ h a, net'.pipes.find? h = some a → net.pipes.find? h = some a) :
    m.next = n.next.filter net'.pipes.contains ∧ m.prev = n.prev.filter net'.pipes.contains := by
  have hnext := ht.inv.next_eq hn
  have hprev := ht.inv.prev_eq hn
  have hnext' : net'.layout.next n.key = m.next := hfades.key_eq ▸ ht'.inv.next_eq hm
  have hprev' : net'.layout.prev n.key = m.prev := hfades.key_eq ▸ ht'.inv.prev_eq hm
  have hapart : ∀ h ∈ n.next, h ∉ n.prev := fun h hh ↦
    hprev ▸ ht.exact.apart n.key n.key h (hnext ▸ hh)
  constructor
  · refine eq_filter_of_sublist hfades.next (hnext ▸ ht.exact.once n.key) fun h hh ↦ ?_
    rw [Arena.contains_iff]
    constructor
    · intro hmem
      obtain ⟨_, a, _, _, _, hj, -⟩ := ht'.exact.next n.key h (hnext' ▸ hmem)
      exact ⟨a, hj.front⟩
    · rintro ⟨a, ha⟩
      obtain ⟨_, a', _, _, _, hj, hnode⟩ := ht.exact.next n.key h (hnext ▸ hh)
      obtain rfl := Option.some.inj ((hpipes h a ha).symm.trans hj.front)
      refine (ht'.exact.listed h a ha).elim (fun hmem ↦ ?_) fun hmem ↦ ?_
      · rwa [hnode, hnext'] at hmem
      · rw [hnode, hprev'] at hmem
        exact absurd (hfades.prev.subset hmem) (hapart h hh)
  · refine eq_filter_of_sublist hfades.prev (hprev ▸ ht.exact.prevOnce n.key) fun h hh ↦ ?_
    rw [Arena.contains_iff]
    constructor
    · intro hmem
      obtain ⟨_, _, b, _, _, hj, -⟩ := ht'.exact.prev n.key h (hprev' ▸ hmem)
      exact ⟨b, hj.rear⟩
    · rintro ⟨b, hb⟩
      obtain ⟨_, _, b', _, _, hj, hnode⟩ := ht.exact.prev n.key h (hprev ▸ hh)
      obtain rfl := Option.some.inj ((hpipes h b hb).symm.trans hj.rear)
      refine (ht'.exact.listed h b hb).elim (fun hmem ↦ ?_) fun hmem ↦ ?_
      · rw [hnode, hnext'] at hmem
        exact absurd hh (hapart h (hfades.next.subset hmem))
      · rwa [hnode, hprev'] at hmem

/-- A node lists those of its flows that are left. -/
theorem Node.Fades.flows_eq_filter (hF : Dwindles net.flows net'.flows) :
    m.flows = n.flows.filter net'.flows.contains := by
  refine eq_filter_of_sublist hfades.flows (ht.watched.nodes n hn).once fun h hh ↦ ?_
  rw [Arena.contains_iff]
  constructor
  · intro hmem
    obtain ⟨f, hf, -⟩ := (ht'.watched.nodes m hm).roster h hmem
    exact ⟨f, hf⟩
  · rintro ⟨f', hf'⟩
    obtain ⟨f, hf, hway⟩ := hF.way hf'
    obtain ⟨k, hk, hnode⟩ := (ht.watched.nodes n hn).roster h hh
    obtain rfl := Option.some.inj (hf.symm.trans hk)
    have hmem := ht'.inv.listed.all h f' hf' (Set.notMem_empty h)
    rwa [Flow.node_eq hway, hnode, ← hfades.key_eq, ht'.inv.roster_eq hm] at hmem

/-- **A node that has lost no more than it had to.** -/
theorem Node.Fades.eq_only (hF : Dwindles net.flows net'.flows)
    (hpipes : ∀ h a, net'.pipes.find? h = some a → net.pipes.find? h = some a) :
    m = n.only net' := by
  obtain ⟨hnext, hprev⟩ := hfades.pipes_eq_filter ht ht' hn hm hpipes
  have hflows := hfades.flows_eq_filter ht ht' hn hm hF
  have hrole : m.role = (n.only net').role := by
    cases hrole : n.role with
    | probe p =>
      obtain ⟨q, hq, hforgets⟩ : ∃ q, m.role = .probe q ∧
        p.Forgets (fun h ↦ net'.flows.find? h = none) q := by
        rcases hfades.role with heq | ⟨p', q, hp', hq, hforgets⟩
        · exact ⟨p, heq.trans hrole, .refl _ p⟩
        · obtain rfl := Role.probe.inj (hrole.symm.trans hp')
          exact ⟨q, hq, hforgets⟩
      have hp := (ht.watched.nodes n hn).probe p (by rw [Node.probe?, hrole])
      have hq' := (ht'.watched.nodes m hm).probe q (by rw [Node.probe?, hq])
      rw [hq, hforgets.eq_only hp.toCounted hq', Node.only, hrole]
    | rule r =>
      rcases hfades.role with heq | ⟨p, q, hp, -⟩
      · rw [heq, Node.only, hrole]
      · exact absurd (hrole.symm.trans hp) (by simp)
    | source =>
      rcases hfades.role with heq | ⟨p, q, hp, -⟩
      · rw [heq, Node.only, hrole]
      · exact absurd (hrole.symm.trans hp) (by simp)
  rw [hfades.same, hrole, hnext, hprev, hflows]
  rfl

end

/-- The other end of a side is there as well, and so is the side at its other end. -/
theorem Network.Tidy.reverse (ht : net.Tidy) {a : Pipe} (ha : net.pipes.find? h = some a) :
    ∃ b, net.pipes.find? a.reverse = some b ∧ b.reverse = h := by
  obtain ⟨fwd, back, a', b, n, m, hj, ⟨rfl, rfl⟩ | ⟨rfl, rfl⟩⟩ := ht.joins ha
  · exact ⟨b, hj.reverse ▸ hj.rear, hj.obverse⟩
  · exact ⟨a', hj.obverse ▸ hj.front, hj.reverse⟩

/-- **The pipes that are left**, if none of those described is. -/
theorem Network.Tidy.find?_pipes (ht : net.Tidy) (ht' : net'.Tidy) {T : Handle → Pipe → Prop}
    {a : Pipe} (hsub : ∀ h a, net'.pipes.find? h = some a → net.pipes.find? h = some a)
    (hkept : ∀ h a, net.pipes.find? h = some a → ¬ net.Cut T h → net'.pipes.find? h = some a)
    (hnone : ∀ h a, net'.pipes.find? h = some a → ¬ T h a) :
    net'.pipes.find? h = some a ↔ net.pipes.find? h = some a ∧ ¬ net.Cut T h := by
  refine ⟨fun ha ↦ ⟨hsub h a ha, ?_⟩, fun ⟨ha, hcut⟩ ↦ hkept h a ha hcut⟩
  rintro ⟨k, b, hb, hT, rfl | rfl⟩
  · exact hnone h a ha (Option.some.inj (hb.symm.trans (hsub h a ha)) ▸ hT)
  · -- the side that is described is the other side of the one that is left
    obtain ⟨a₀, ha₀, hback⟩ := ht.reverse hb
    obtain rfl := Option.some.inj (ha₀.symm.trans (hsub _ a ha))
    obtain ⟨b', hb', -⟩ := ht'.reverse ha
    rw [hback] at hb'
    obtain rfl := Option.some.inj (hb.symm.trans (hsub k b' hb'))
    exact hnone k b hb' hT

/-! ### Removing a link -/

/-- No side along a link is there without the link. -/
theorem Network.Tidy.not_sideAlong (ht : net.Tidy) (ht' : net'.Tidy) {a : Pipe}
    (hsub : ∀ h a, net'.pipes.find? h = some a → net.pipes.find? h = some a)
    (hnodes : ∀ m ∈ net'.nodes, ∃ n ∈ net.nodes, n.key = m.key ∧ m.prev.Sublist n.prev)
    (hl : l ∉ net'.links) (ha : net'.pipes.find? h = some a) : ¬ net.SideAlong l h a := by
  rintro ⟨⟨n, hn, hnext⟩, hsource, b, hb, htarget⟩
  obtain ⟨fwd, back, a', b', s, r, hj, ⟨rfl, rfl⟩ | ⟨rfl, rfl⟩⟩ := ht'.joins ha
  · have hb' := hsub _ b' hj.rear
    rw [← hj.reverse, hb] at hb'
    obtain rfl := Option.some.inj hb'
    have hlink := hj.link
    rw [hsource, htarget] at hlink
    exact hl hlink
  · -- a side at which pipes end does not become one at which they begin
    obtain ⟨m, hm, hsame⟩ := exists_nodeAt? hj.receiver
    obtain ⟨hmem, hkey⟩ := nodeAt?_eq_some hm
    obtain ⟨n', hn', hkey', hprev⟩ := hnodes m hmem
    have hback := hj.prev
    rw [← hkey, ht'.inv.prev_eq hmem] at hback
    exact ht.exact.apart n.key n'.key h (ht.inv.next_eq hn ▸ hnext)
      (ht.inv.prev_eq hn' ▸ hprev.subset hback)

/-- No flow that came along a link is there without the link. -/
theorem Network.Tidy.not_cameAlong (ht' : net'.Tidy)
    (hsub : ∀ h a, net'.pipes.find? h = some a → net.pipes.find? h = some a)
    (hsides : ∀ h a, net'.pipes.find? h = some a → ¬ net.SideAlong l h a)
    (hf' : net'.flows.find? h = some f') : ¬ net.CameAlong l f' := by
  rintro ⟨fwd, a, hpipe, ha, hside⟩
  cases hp : f'.parent with
  | none => exact absurd ((ht'.inv.forest.root h f' hf' hp).2.1.symm.trans hpipe) (by simp)
  | some p =>
    obtain ⟨g, fwd', w, -, hpipe', hw, -⟩ := ht'.inv.forest.wire hf' hp
    obtain rfl := Option.some.inj (hpipe.symm.trans hpipe')
    obtain ⟨a', ha', -⟩ := hw.pipe
    obtain rfl := Option.some.inj (ha.symm.trans (hsub fwd a' ha'))
    exact hsides fwd a ha' hside

/-- What is left when flows go that came from described ones, and described pipes. -/
theorem Network.Tidy.remains {T : Handle → Pipe → Prop} {mid' : Network} (ht : net.Tidy)
    (ht' : net'.Tidy) (hloses : mid.Loses S T mid') (hflows : mid.flows = net.flows)
    (hpipes : mid.pipes = net.pipes) (hflows' : net'.flows = mid'.flows)
    (hpipes' : net'.pipes = mid'.pipes)
    (hnodes : List.Forall₂ (Node.Fades fun h ↦ net'.flows.find? h = none)
      (net.nodes.filter fun n ↦ stays n.key) net'.nodes)
    (hids : ∀ (id : NodeId) key, net'.directory.ids[id]? = some key ↔
      net.directory.ids[id]? = some key ∧ stays key = true)
    (htopology : net.topology.Keeps links net'.topology)
    (houtline : net' = { net with
      nodes := net'.nodes
      directory := net'.directory
      topology := net'.topology
      pipes := net'.pipes
      flows := net'.flows
      lastEvent := net'.lastEvent
      budget := net'.budget })
    (hS : ∀ h f, net'.flows.find? h = some f → ¬ S f)
    (hT : ∀ h a, net'.pipes.find? h = some a → ¬ T h a)
    (hway : ∀ f cs, S f → S { f with children := cs }) :
    net.Remains (fun h ↦ ∃ g f, net.flows.find? g = some f ∧ S f ∧ net.flows.Descends g h)
      (net.Cut T) stays links net' := by
  have hF : Dwindles net.flows net'.flows := hflows ▸ hflows' ▸ hloses.wanes.flows
  have hsub : ∀ h a, net'.pipes.find? h = some a → net.pipes.find? h = some a := by
    rw [← hpipes, hpipes']
    exact hloses.wanes.pipes
  have hleft : net'.nodes = (net.nodes.filter fun n ↦ stays n.key).map (Node.only net') :=
    eq_map_of_forall₂ hnodes fun n hn m hm hfades ↦
      hfades.eq_only ht ht' (List.mem_of_mem_filter hn) hm hF hsub
  have hcores : net'.layout.cores = net.layout.cores.filter fun n ↦ stays n.key := by
    rw [layout, layout, hleft, List.map_map, List.filter_map]
    exact List.map_congr_left fun n _ ↦ n.core_only net'
  refine ⟨fun h f' ↦ ?_, fun h a ↦ ?_, hleft, ?_, htopology, houtline⟩
  · rw [ht.find?_flows (S := S) ht' hF
      (by rw [← hflows, hflows']; exact hloses.flows) fun h f f' hf hf' hSf ↦ ?_]
    · refine exists_congr fun f ↦ and_congr_right fun _ ↦ and_congr_left fun _ ↦ ?_
      simp only [Arena.Spared, not_exists, not_and]
    · obtain ⟨f₀, cs, hf₀, -, rfl⟩ := hF h f' hf'
      obtain rfl := Option.some.inj (hf.symm.trans hf₀)
      exact hS h _ hf' (hway f cs hSf)
  · refine ht.find?_pipes ht' hsub (fun h a ha hcut ↦ ?_) hT
    rw [hpipes']
    refine hloses.pipes h a (hpipes ▸ ha) ?_
    rwa [Network.Cut, hpipes]
  · exact ht.inv.layout.found.keeps (hcores ▸ ht'.inv.layout.found) hids

namespace Network

/-- **Removing a link** takes what came along it. -/
theorem remains_removeLink {u : Unit} (hok : (net.removeLink l).result = .ok u) (ht : net.Tidy)
    (ht' : (net.removeLink l).network.Tidy) :
    net.Remains
      (fun h ↦ ∃ g f, net.flows.find? g = some f ∧ net.CameAlong l f ∧ net.flows.Descends g h)
      (net.Cut (net.SideAlong l)) (fun _ ↦ true) (net.links.filter (· ≠ l))
        (net.removeLink l).network := by
  rw [removeLink] at hok ht' ⊢
  split at hok
  · exact absurd hok (by simp [Outcome.refused])
  rw [if_neg ‹_›] at ht' ⊢
  have hl := leads_of_carryOut hok
  rw [leads_setEvent_bind] at hl
  obtain ⟨⟨⟩, mid, hdisconnect, hlast⟩ := hl.bind
  have hlast := leads_update.1 hlast
  generalize (net.carryOut _).network = net' at ht' hlast
  have hloses := hdisconnect.loses_disconnectLink ht.watched.nodup ht.inv.kindred
  have hnodes : List.Forall₂ (Node.Fades fun h ↦ net'.flows.find? h = none) net.nodes
      net'.nodes := by
    rw [hlast]
    exact hloses.wanes.nodes.imp fun _ _ hf ↦ hf.imp fun h hh ↦ hh.resolve_left (Set.notMem_empty h)
  have hsub : ∀ h a, net'.pipes.find? h = some a → net.pipes.find? h = some a := by
    rw [hlast]
    exact hloses.wanes.pipes
  have hdirectory : net'.directory = net.directory := by rw [hlast, hloses.wanes.outline]
  have htopology : net'.topology = net.topology.cut l := by rw [hlast, hloses.wanes.outline]
  have hleft : net.topology.Keeps (net.links.filter (· ≠ l)) net'.topology :=
    htopology ▸ ht.inv.layout.mirrored.keeps_cut
  have hcut : l ∉ net'.links := by
    rw [links, hleft.links]
    simp
  have hsides : ∀ h a, net'.pipes.find? h = some a → ¬ net.SideAlong l h a := by
    refine fun h a ha ↦ ht.not_sideAlong ht' hsub (fun m hm ↦ ?_) hcut ha
    rw [hlast] at hm
    obtain ⟨n, hn, hfades⟩ := hloses.wanes.exists_fades hm
    exact ⟨n, hn, hfades.key_eq.symm, hfades.prev⟩
  refine ht.remains ht' hloses rfl rfl (by rw [hlast]) (by rw [hlast]) ?_
    (fun id key ↦ by simp [hdirectory]) hleft ?_
    (fun h f hf ↦ ht'.not_cameAlong hsub hsides hf) hsides fun _ _ hf ↦ hf
  · rwa [List.filter_eq_self.2 fun _ _ ↦ rfl]
  · rw [hlast, hloses.wanes.outline]

/-! ### Removing a node -/

/-- A node that is found by its identifier takes this one with it, and no other. -/
theorem ids_strike (ht : net.Tidy) (hn : n ∈ net.nodes)
    (hid : net.directory.ids[n.id]? = some n.key) (hsame : m.id = n.id) (id : NodeId)
    (key : NodeKey) : (net.directory.strike m).ids[id]? = some key ↔
      net.directory.ids[id]? = some key ∧ decide (key ≠ n.key) = true := by
  rw [Directory.strike, hsame, Std.ExtTreeMap.getElem?_erase, decide_eq_true_eq]
  by_cases he : n.id = id
  · subst he
    simp [hid, eq_comm]
  · rw [if_neg (mt Std.compare_eq_iff_eq.1 he)]
    refine ⟨fun hkey ↦ ⟨hkey, ?_⟩, And.left⟩
    rintro rfl
    obtain ⟨c, hc, hckey, hcid⟩ := ht.inv.layout.found.of_id hkey
    obtain rfl := List.inj_on_of_nodup_map ht.inv.layout.nodup hc (List.mem_map_of_mem hn) hckey
    exact he hcid

/-- Whether a node is a rule shows in its core. -/
theorem rule?_eq_none_of_core {m : Node} (hcore : m.core = n.core) (hplain : n.rule? = none) :
    m.rule? = none := by
  refine Option.eq_none_iff_forall_ne_some.2 fun r hr ↦ ?_
  obtain ⟨w, hw⟩ := Node.kind_core_eq_rule.2 ⟨r, hr, rfl, rfl⟩
  obtain ⟨r', hr', -⟩ := Node.kind_core_eq_rule.1 ⟨w, hcore ▸ hw⟩
  exact absurd (hplain.symm.trans hr') (by simp)

/-- **Removing a source or a probe** takes the flows at it, with what came from them. -/
theorem remains_removePlainNode {D : Set Debt} (hl : Leads (removePlainNode n.key) mid () net')
    (hmid : Inv mid ∅ D) (hflows : mid.flows = net.flows) (hlayout : mid.layout = net.layout)
    (hnodes : mid.nodes.filter (·.key ≠ n.key) = net.nodes.filter (·.key ≠ n.key))
    (houtline : mid =
      { net with nodes := mid.nodes, lastEvent := mid.lastEvent, budget := mid.budget })
    (hn : n ∈ net.nodes) (hplain : n.rule? = none) (hid : net.directory.ids[n.id]? = some n.key)
    (ht : net.Tidy) (ht' : net'.Tidy) :
    net.Remains
      (fun h ↦ ∃ g f, net.flows.find? g = some f ∧ f.node = n.key ∧ net.flows.Descends g h)
      (net.Cut fun _ a ↦ a.node = n.key) (· ≠ n.key) net.links net' := by
  obtain ⟨⟨⟩, net₁, hremove, hl⟩ := hl.bind
  obtain ⟨⟨⟩, net₂, hdisconnect, herase⟩ := hl.bind
  have hloses := loses_isolate hremove hdisconnect
    (map_key_cores mid ▸ hmid.layout.nodup) hmid.kindred
    (fun n hn hkey h hh f hf ↦ (hmid.node_of_mem_flows hn hh hf).trans hkey)
    fun n hn hkey h hh a ha ↦ (hmid.node_of_mem_pipes hn hh ha).trans hkey
  rw [Engine.eraseNode, leads_node_bind] at herase
  obtain ⟨n₂, hn₂, herase⟩ := herase
  obtain ⟨hmem₂, hkey₂⟩ := nodeAt?_eq_some hn₂
  have hlast := leads_update.1 herase
  -- what is struck out is the node, though its lists are shorter by now
  have hcore₂ : n₂.core = n.core := by
    obtain ⟨n₁, hn₁, hfades⟩ := hloses.wanes.exists_fades hmem₂
    have hmem₁ : n₁.core ∈ net.layout.cores := hlayout ▸ List.mem_map_of_mem hn₁
    rw [hfades.core_eq]
    exact List.inj_on_of_nodup_map ht.inv.layout.nodup hmem₁ (List.mem_map_of_mem hn)
      (hfades.key_eq.symm.trans hkey₂)
  have hplain₂ : n₂.rule? = none := rule?_eq_none_of_core hcore₂ hplain
  have hdirectory : net'.directory = net.directory.strike n₂ := by
    rw [hlast, hloses.wanes.outline, houtline]
    rfl
  have htopology : net'.topology = net.topology := by
    rw [hlast, hloses.wanes.outline, houtline]
    rfl
  have hgone : ∀ m, net'.layout.core? n.key ≠ some m := by
    intro m hm
    obtain ⟨n, hn, rfl⟩ := exists_nodeAt? hm
    obtain ⟨hn, hkey⟩ := nodeAt?_eq_some hn
    rw [hlast] at hn
    simpa [hkey, hkey₂] using (List.mem_filter.1 hn).2
  have hnodes' : List.Forall₂ (Node.Fades fun h ↦ net'.flows.find? h = none) mid.nodes
      net₂.nodes := by
    rw [hlast]
    exact hloses.wanes.nodes.imp fun _ _ hf ↦ hf.imp fun h hh ↦ hh.resolve_left (Set.notMem_empty h)
  refine ht.remains ht' hloses hflows (congrArg Layout.pipes hlayout) (by rw [hlast]; rfl)
    (by rw [hlast]; rfl) ?_
    (hdirectory ▸ ids_strike ht hn hid (congrArg Core.id hcore₂))
    (by rw [htopology]; exact ht.inv.layout.mirrored.keeps) ?_
    (fun h f hf hkey ↦ ?_) (fun h a ha hkey ↦ ?_) fun _ _ hf ↦ hf
  · rw [← hnodes, show net'.nodes = net₂.nodes.filter (·.key ≠ n.key) from hlast ▸ hkey₂ ▸ rfl]
    refine List.rel_filter (fun n m hf ↦ ?_) hnodes'
    simp only [hf.key_eq]
  · rw [hlast, strike, Table.map_strike_of_plain hplain₂, hloses.wanes.outline, houtline]
  · obtain ⟨m, hm⟩ := ht'.inv.core hf
    exact hgone m (hkey ▸ hm)
  · obtain ⟨fwd, back, a', b, s, r, hj, ⟨rfl, rfl⟩ | ⟨rfl, rfl⟩⟩ := ht'.joins ha
    · exact hgone s (hkey ▸ hj.sender)
    · exact hgone r (hkey ▸ hj.receiver)

/-- A node of another type is no rule. -/
theorem rule?_of_type {type : NodeType} (htype : n.type = type) (hne : type ≠ .rule) :
    n.rule? = none := by
  cases hrole : n.role <;> simp_all [Node.type, Node.rule?]

/-- A node that is found by an identifier is found by its own. -/
theorem ids_of_node? (ht : net.Tidy) {id : NodeId} (hn : net.node? id = some n) :
    net.directory.ids[n.id]? = some n.key := by
  obtain ⟨key, hkey, hat⟩ := Option.bind_eq_some_iff.1 hn
  rw [id_of_node? ht.inv.layout hn, hkey, (nodeAt?_eq_some hat).2]

/-- A change of a node is none of the others. -/
theorem filter_withNode {e : Node → Node} (he : ∀ n, (e n).key = n.key) :
    (withNode net key e).nodes.filter (·.key ≠ key) = net.nodes.filter (·.key ≠ key) := by
  rw [withNode]
  induction net.nodes with
  | nil => rfl
  | cons n ns ih =>
    rw [List.map_cons, List.filter_cons, List.filter_cons, ih]
    by_cases hkey : n.key = key <;> simp [hkey, he]

/-- **Removing a source** takes its root with all that came from it. -/
theorem remains_removeSource {id : NodeId} {u : Unit} (hok : (net.removeSource id).result = .ok u)
    (ht : net.Tidy) (ht' : (net.removeSource id).network.Tidy) :
    ∃ n, net.node? id = some n ∧ n.type = .source ∧
      net.Remains
        (fun h ↦ ∃ g f, net.flows.find? g = some f ∧ f.node = n.key ∧ net.flows.Descends g h)
        (net.Cut fun _ a ↦ a.node = n.key) (· ≠ n.key) net.links (net.removeSource id).network := by
  rw [removeSource] at hok ht' ⊢
  cases hn : net.expect id .source .source with
  | error e => simp [hn, Outcome.refused] at hok
  | ok n =>
    simp only [hn] at hok ht' ⊢
    obtain ⟨hfind, htype⟩ := expect_eq_ok.1 hn
    have hl := leads_of_carryOut hok
    rw [leads_setEvent_bind] at hl
    exact ⟨n, hfind, htype,
      remains_removePlainNode hl ((quiet_begin net _ _).inv ht.inv) rfl rfl rfl rfl
      (mem_of_node? hfind) (rule?_of_type htype (by simp)) (ids_of_node? ht hfind) ht ht'⟩

/-- Stopping a probe is no change of the others. -/
theorem others_of_stopProbe (hl : Leads (stopProbe key) net () net') :
    net'.nodes.filter (·.key ≠ key) = net.nodes.filter (·.key ≠ key) ∧
      net' = { net with nodes := net'.nodes, lastEvent := net'.lastEvent } := by
  rw [stopProbe, leads_node_bind] at hl
  obtain ⟨n, -, hl⟩ := hl
  rw [leads_setEvent_bind] at hl
  cases hp : n.probe? with
  | none =>
    simp only [hp] at hl
    obtain ⟨-, rfl⟩ := leads_pure.1 hl
    exact ⟨rfl, rfl⟩
  | some p =>
    simp only [hp] at hl
    obtain rfl := leads_updateNode.1 hl
    exact ⟨filter_withNode fun _ ↦ rfl, rfl⟩

/-- **Removing a probe** takes the flows at it, from which nothing came. -/
theorem remains_removeProbe {id : NodeId} {u : Unit} (hok : (net.removeProbe id).result = .ok u)
    (ht : net.Tidy) (ht' : (net.removeProbe id).network.Tidy) :
    ∃ n, net.node? id = some n ∧ n.type = .sourceProbe ∧
      net.Remains
        (fun h ↦ ∃ g f, net.flows.find? g = some f ∧ f.node = n.key ∧ net.flows.Descends g h)
        (net.Cut fun _ a ↦ a.node = n.key) (· ≠ n.key) net.links (net.removeProbe id).network := by
  rw [removeProbe] at hok ht' ⊢
  cases hn : net.expect id .sourceProbe .probe with
  | error e => simp [hn, Outcome.refused] at hok
  | ok n =>
    simp only [hn] at hok ht' ⊢
    obtain ⟨hfind, htype⟩ := expect_eq_ok.1 hn
    obtain ⟨⟨⟩, mid, hstop, hl⟩ := (leads_of_carryOut hok).bind
    have hquiet := (Quiet.budget net _).trans (quiet_stopProbe hstop ht.watched.nodup)
    -- a probe that is stopped differs from what it was, but it goes
    obtain ⟨hothers, houtline⟩ := others_of_stopProbe hstop
    refine ⟨n, hfind, htype, remains_removePlainNode hl (hquiet.inv ht.inv) hquiet.flows
      hquiet.layout hothers ?_ (mem_of_node? hfind) (rule?_of_type htype (by simp))
        (ids_of_node? ht hfind) ht ht'⟩
    rw [houtline]

/-- What came from a flow at a source came from its root. -/
theorem Tidy.descends_root (ht : net.Tidy) {root : Handle} (hn : n ∈ net.nodes)
    (hroot : n.flows = [root]) :
    (∃ g f, net.flows.find? g = some f ∧ f.node = n.key ∧ net.flows.Descends g h) ↔
      net.flows.Descends root h := by
  constructor
  · rintro ⟨g, f, hf, hnode, hd⟩
    have hg := ht.inv.listed.all g f hf (Set.notMem_empty g)
    rw [hnode, ht.inv.roster_eq hn, hroot, List.mem_singleton] at hg
    exact hg ▸ hd
  · intro hd
    obtain ⟨f, hf⟩ := hd.live
    exact ⟨root, f, hf, ht.inv.node_of_mem_flows hn (hroot ▸ List.mem_singleton_self root) hf, hd⟩

/-- From a probe no flow goes on. -/
theorem Tidy.eq_of_descends (ht : net.Tidy) (hn : n ∈ net.nodes) (htype : n.type = .sourceProbe)
    (hf : net.flows.find? g = some f) (hnode : f.node = n.key) (hd : net.flows.Descends g h) :
    h = g := by
  have hkind : n.core.kind = .probe := by
    cases hrole : n.role with
    | probe p => rw [Node.core, hrole, Role.kind]
    | _ => simp [Node.type, hrole] at htype
  induction hd with
  | refl => rfl
  | step hk hp _ ih =>
    obtain rfl := ih
    obtain ⟨-, fwd, w, -, hw, hsender, -⟩ := ht.inv.forest.came _ _ _ _ hk hp hf
    exact absurd (hsender.trans hnode) (ht.inv.layout.not_runs
      (Layout.core?_of_nodeAt? (ht.inv.nodeAt?_key hn)) hkind hw)

/-- **What removing takes.** After the removal of a link the flows are gone that came along it, with
all that came from them; after the removal of a source, what came from its root; after the removal
of a probe, the flows at it. Pipes are gone along the link, or at the node. Everything else is what
it was. -/
theorem Reached.removal_exact (hr : Reached net spaces) :
    (∀ l, (net.removeLink l).result = .ok () →
      net.Remains
        (fun h ↦ ∃ g f, net.flows.find? g = some f ∧ net.CameAlong l f ∧ net.flows.Descends g h)
        (net.Cut (net.SideAlong l)) (fun _ ↦ true) (net.links.filter (· ≠ l))
          (net.removeLink l).network) ∧
    (∀ id, (net.removeSource id).result = .ok () →
      ∃ n root, net.node? id = some n ∧ n.type = .source ∧
      n.flows = [root] ∧ net.Remains (net.flows.Descends root) (net.Cut fun _ a ↦ a.node = n.key)
        (· ≠ n.key) net.links (net.removeSource id).network) ∧
    (∀ id, (net.removeProbe id).result = .ok () →
      ∃ n, net.node? id = some n ∧ n.type = .sourceProbe ∧
      net.Remains (fun h ↦ ∃ f, net.flows.find? h = some f ∧ f.node = n.key)
        (net.Cut fun _ a ↦ a.node = n.key) (· ≠ n.key) net.links (net.removeProbe id).network) := by
  have ht := hr.tidy
  refine ⟨fun l hok ↦ ?_, fun id hok ↦ ?_, fun id hok ↦ ?_⟩
  · exact remains_removeLink hok ht (hr.apply (.removeLink l) (Outcome.map_of_ok hok)).tidy
  · obtain ⟨n, hfind, htype, hremains⟩ :=
      remains_removeSource hok ht (hr.apply (.removeSource id) (Outcome.map_of_ok hok)).tidy
    have hn := mem_of_node? hfind
    obtain ⟨root, hroot⟩ := hr.atRest.2.flows_eq ht.inv hn htype
    exact ⟨n, root, hfind, htype, hroot, hremains.congr fun h ↦ ht.descends_root hn hroot⟩
  · obtain ⟨n, hfind, htype, hremains⟩ :=
      remains_removeProbe hok ht (hr.apply (.removeProbe id) (Outcome.map_of_ok hok)).tidy
    have hn := mem_of_node? hfind
    refine ⟨n, hfind, htype, hremains.congr fun h ↦
      ⟨?_, fun ⟨f, hf, hnode⟩ ↦ ⟨h, f, hf, hnode, .refl hf⟩⟩⟩
    rintro ⟨g, f, hf, hnode, hd⟩
    obtain rfl := ht.eq_of_descends hn htype hf hnode hd
    exact ⟨f, hf, hnode⟩

/-- A source before a rule with two ways to a probe. -/
def branching : Network × (NodeKey → Option Space) :=
  (replay [.addTable 1 [11, 12, 13], .addLink ⟨1, 11⟩, .addLink ⟨12, 21⟩, .addLink ⟨13, 22⟩,
    .addRule
      { table := 1, index := 1, inPorts := [11], outPorts := [12, 13], accepts := .allWild 1 },
    .addSourcePattern (.allWild 1) [1],
    .addProbe { mode := .existential, filter := .always, test := .always, ports := [21, 22] }]
    (.new 1 .default, fun _ ↦ none)).get (by decide +kernel)

/-- One of the two ways can be cut, and both ends can go. -/
theorem removal_exact_branching :
    (branching.1.Remains (fun h ↦ ∃ g f, branching.1.flows.find? g = some f ∧
        branching.1.CameAlong ⟨12, 21⟩ f ∧ branching.1.flows.Descends g h)
      (branching.1.Cut (branching.1.SideAlong ⟨12, 21⟩)) (fun _ ↦ true)
        (branching.1.links.filter (· ≠ ⟨12, 21⟩))
      (branching.1.removeLink ⟨12, 21⟩).network) ∧
    (∃ n root, branching.1.node? 1 = some n ∧ n.type = .source ∧ n.flows = [root] ∧
      branching.1.Remains (branching.1.flows.Descends root)
        (branching.1.Cut fun _ a ↦ a.node = n.key)
        (· ≠ n.key) branching.1.links (branching.1.removeSource 1).network) ∧
    ∃ n, branching.1.node? 2 = some n ∧ n.type = .sourceProbe ∧
      branching.1.Remains (fun h ↦ ∃ f, branching.1.flows.find? h = some f ∧ f.node = n.key)
        (branching.1.Cut fun _ a ↦ a.node = n.key) (· ≠ n.key) branching.1.links
        (branching.1.removeProbe 2).network := by
  have hreached :
      Reached branching.1 branching.2 := (Reached.new 1 .default).replay (Option.some_get _).symm
  have hok : ∀ {r : Except NetworkError Unit}, r.toOption = some () → r = .ok () := by
    rintro (e | _) h
    · cases h
    · rfl
  obtain ⟨hlink, hsource, hprobe⟩ := Reached.removal_exact hreached
  exact ⟨hlink ⟨12, 21⟩ (hok (by decide +kernel)), hsource 1 (hok (by decide +kernel)),
    hprobe 2 (hok (by decide +kernel))⟩

end Network

end HeaderFlow
