import HeaderFlow.Proofs.Network.Release

/-!
# Nodes that come and go

A node comes without pipes, influences and flows (`Node.Bare`), and it goes when it has none any
more. **Flows notice neither**, so all that is to be said concerns the layout: a new node leaves the
pipes and influences missing that it should have, and with a node that goes these are missed no
more.

## What is recorded of a node

Besides the list of nodes there are the directory and the tables, which are updated with it.
`Network.enrol` makes all of the entries of a new node and `Network.strike` removes all of those of
a node that goes; that the entries agree with the nodes afterwards is part of `WellFormed.grow` and
`WellFormed.shrink`. A rule may be entered only where its place in the table is free
(`Registry.Admits`), which a change sees to by removing the old rule first.

A new node gets the next key, and keys are never given out again, so nothing that is still about an
old node can be taken for being about the new one.
-/

namespace HeaderFlow

variable {L : Layout} {net net' : Network} {F : Arena Flow} {D : Set Debt} {X : Set Handle}
  {E : NodeKey → NodeKey → Link → Prop} {R : NodeKey → NodeKey → Prop} {n m : Core} {c : Node}
  {key key' : NodeKey} {port : Port} {x : Nat → Bool}

namespace Layout

/-! ### Growing -/

/-- The layout with a node more, at which nothing is yet. -/
def grow (L : Layout) (c : Node) : Layout :=
  { L with
    cores := L.cores ++ [c.core]
    registry := L.registry.enrol c
    nextKey := L.nextKey + 1 }

/-- Other nodes are found as before. -/
theorem core?_grow_of_ne (hne : key ≠ c.key) : (L.grow c).core? key = L.core? key := by
  have hlast : [c.core].find? (·.key == key) = none := by simpa using hne.symm
  rw [core?, grow, List.find?_append, hlast, Option.or_none]
  rfl

/-- A node that was there is found still, since the new one has a key of its own. -/
theorem core?_grow_of_some (hm : L.core? key = some m) : (L.grow c).core? key = some m := by
  rw [core?] at hm
  rw [core?, grow, List.find?_append, hm]
  rfl

/-- The key of a new node is that of no other. -/
theorem WellFormed.core?_nextKey (hL : L.WellFormed) : L.core? L.nextKey = none := by
  refine List.find?_eq_none.2 fun m hm ↦ ?_
  have hlt := hL.fresh m hm
  simpa using Nat.ne_of_lt hlt

/-- Pipes join what they joined. -/
theorem Joins.grow {fwd back : Handle} {a b : Pipe} {s r : Core} (hj : L.Joins fwd back a b s r) :
    (L.grow c).Joins fwd back a b s r :=
  { hj with
    sender := core?_grow_of_some hj.sender
    receiver := core?_grow_of_some hj.receiver }

/-- **A new node keeps a layout well formed**, if it is as it must be and may be entered. -/
theorem WellFormed.grow (hL : L.WellFormed) (hkey : c.key = L.nextKey) (hc : c.core.Proper)
    (hadmits : L.registry.Admits L.cores c.core) : (L.grow c).WellFormed where
  pipes := hL.pipes
  nodup := by
    rw [show (L.grow c).cores = L.cores ++ [c.core] from rfl, List.map_append, List.nodup_append]
    refine ⟨hL.nodup, List.nodup_singleton _, fun k hk k' hk' ↦ ?_⟩
    obtain ⟨m, hm, rfl⟩ := List.mem_map.1 hk
    obtain rfl := List.mem_singleton.1 hk'
    exact Nat.ne_of_lt (hkey ▸ hL.fresh m hm : m.key < c.key)
  fresh m hm := by
    rcases List.mem_append.1 hm with hm | hm
    · exact Nat.lt_succ_of_lt (hL.fresh m hm)
    · rw [List.mem_singleton.1 hm, Node.key_core, hkey]
      exact Nat.lt_succ_self _
  proper m hm := by
    rcases List.mem_append.1 hm with hm | hm
    · exact hL.proper m hm
    · exact List.mem_singleton.1 hm ▸ hc
  found := hL.found.enrol hadmits
  mirrored := hL.mirrored
  next k fwd hfwd := by
    obtain ⟨back, a, b, s, r, hj, hnode⟩ := hL.next k fwd hfwd
    exact ⟨back, a, b, s, r, hj.grow, hnode⟩
  prev k back hback := by
    obtain ⟨fwd, a, b, s, r, hj, hnode⟩ := hL.prev k back hback
    exact ⟨fwd, a, b, s, r, hj.grow, hnode⟩
  once := hL.once
  apart := hL.apart

/-- All pipes of the new node are missing. -/
theorem Wired.grow (hw : L.Wired E) :
    (L.grow c).Wired fun s r l ↦ E s r l ∨ touching c.key s r l := by
  intro s hs r hr q hq p hp hl hnot a x ha hax hsx
  have hold : ∀ {m : Core}, m ∈ (L.grow c).cores → m.key ≠ c.key → m ∈ L.cores := fun hm hne ↦
    (List.mem_append.1 hm).resolve_right fun hlast ↦ hne (List.mem_singleton.1 hlast ▸ rfl)
  exact hw s (hold hs fun he ↦ hnot (.inr (.inl he))) r (hold hr fun he ↦ hnot (.inr (.inr he)))
    q hq p hp hl (fun he ↦ hnot (.inl he)) a x ha hax hsx

theorem Outranks.grow {i : Influence} (hr : L.Outranks i m n) :
    (L.grow c).Outranks i m n :=
  { hr with
    influencer := core?_grow_of_some hr.influencer
    influenced := core?_grow_of_some hr.influenced }

/-- Influences rank the rules that they ranked. -/
theorem Ranks.grow {k : Handle} {i : Influence} (hr : L.Ranks k i m n) :
    (L.grow c).Ranks k i m n :=
  { hr.toOutranks.grow with effect := hr.effect, loss := hr.loss }

/-- The new node lists no influences, and no other rule has its place. -/
theorem Ordered.grow (ho : L.Ordered X)
    (hadmits : L.registry.Admits L.cores c.core) : (L.grow c).Ordered X where
  influences := ho.influences
  lost k j hj := by
    obtain ⟨i, hi, hkey, hr⟩ := ho.lost k j hj
    exact ⟨i, hi, hkey, fun hX ↦ (hr hX).imp fun m ⟨n, hr⟩ ↦ ⟨n, hr.grow⟩⟩
  won k j hj := by
    obtain ⟨i, hi, hkey, hr⟩ := ho.won k j hj
    exact ⟨i, hi, hkey, fun hX ↦ (hr hX).imp fun m ⟨n, hr⟩ ↦ ⟨n, hr.grow⟩⟩
  place s hs t ht table index w w' hks hkt := by
    rcases List.mem_append.1 hs with hs' | hs'
    · rcases List.mem_append.1 ht with ht' | ht'
      · exact ho.place s hs' t ht' table index w w' hks hkt
      · obtain rfl := List.mem_singleton.1 ht'
        exact absurd hks ((hadmits table index w' hkt).2 s hs' w)
    · obtain rfl := List.mem_singleton.1 hs'
      rcases List.mem_append.1 ht with ht' | ht'
      · exact absurd hkt ((hadmits table index w hks).2 t ht' w')
      · exact (List.mem_singleton.1 ht').symm

/-- All influences of the new node are missing. -/
theorem Ranked.grow (hr : L.Ranked R) :
    (L.grow c).Ranked fun m n ↦ R m n ∨ involving c.key m n := by
  intro s hs t ht table place place' w w' hks hkt hlt hnot port hport hport' p q x hp hq hpx hqx
  have hold : ∀ {m : Core}, m ∈ (L.grow c).cores → m.key ≠ c.key → m ∈ L.cores := fun hm hne ↦
    (List.mem_append.1 hm).resolve_right fun hlast ↦ hne (List.mem_singleton.1 hlast ▸ rfl)
  exact hr s (hold hs fun he ↦ hnot (.inr (.inr he))) t (hold ht fun he ↦ hnot (.inr (.inl he)))
    table place place' w w' hks hkt hlt (fun he ↦ hnot (.inl he)) port hport hport' p q x hp hq
    hpx hqx

/-- What is taken from a node depends on what it loses in. -/
theorem taken_congr {L' : Layout} (hcore : L'.core? key = L.core? key)
    (hlost : L'.lost = L.lost) (hinfluences : L'.influences = L.influences) :
    L'.Taken key port x ↔ L.Taken key port x := by
  rw [Taken, Taken, hcore, hlost, hinfluences]

/-- **Flows do not notice a new node.** -/
theorem shift_grow (hfree : ∀ h f, F.find? h = some f → f.node ≠ c.key) :
    Shift L (L.grow c) F D where
  keyMask := rfl
  core h f hf := core?_grow_of_ne (hfree h f hf)
  kept _ _ _ _ _ _ _ hrun := hrun
  runs _ _ hrun := .inl hrun
  less h f _ hf ht := .inl ((taken_congr (core?_grow_of_ne (hfree h f hf)) rfl rfl).2 ht)
  more h f _ hf ht := .inl ((taken_congr (core?_grow_of_ne (hfree h f hf)) rfl rfl).1 ht)

/-! ### Shrinking -/

/-- The layout without a node. -/
def shrink (L : Layout) (c : Node) : Layout :=
  { L with
    cores := L.cores.filter (·.key ≠ c.key)
    registry := L.registry.strike c }

/-- The other nodes are left. -/
theorem mem_cores_shrink : m ∈ (L.shrink c).cores ↔ m ∈ L.cores ∧ m.key ≠ c.key := by
  simp [shrink]

/-- The other nodes are found as before. -/
theorem core?_shrink_of_ne (hne : key ≠ c.key) : (L.shrink c).core? key = L.core? key := by
  rw [core?, core?, shrink, List.find?_filter]
  congr 1
  funext m
  by_cases hm : m.key = key
  · simp [hm, hne]
  · simp [hm]

/-- The node lists no pipes and no influences. -/
structure Isolated (L : Layout) (key : NodeKey) : Prop where
  next : L.next key = []
  prev : L.prev key = []
  lost : L.lost key = []
  won : L.won key = []

/-- Whoever lists something is not the node that goes. -/
theorem Isolated.ne_of_mem {list : NodeKey → List Handle} {h : Handle} (hnil : list key = [])
    (hh : h ∈ list key') : key' ≠ key := by
  rintro rfl
  exact absurd (hnil ▸ hh) List.not_mem_nil

/-- A pipe that is there joins other nodes. -/
theorem Joins.shrink {fwd back : Handle} {a b : Pipe} {s r : Core} (hi : L.Isolated c.key)
    (hj : L.Joins fwd back a b s r) : (L.shrink c).Joins fwd back a b s r :=
  { hj with
    sender := (core?_shrink_of_ne (Isolated.ne_of_mem hi.next hj.next)).trans hj.sender
    receiver := (core?_shrink_of_ne (Isolated.ne_of_mem hi.prev hj.prev)).trans hj.receiver }

/-- **A node without pipes may go.** -/
theorem WellFormed.shrink (hL : L.WellFormed) (hc : c.core ∈ L.cores) (hi : L.Isolated c.key) :
    (L.shrink c).WellFormed where
  pipes := hL.pipes
  nodup := hL.nodup.sublist (List.filter_sublist.map _)
  fresh m hm := hL.fresh m (mem_cores_shrink.1 hm).1
  proper m hm := hL.proper m (mem_cores_shrink.1 hm).1
  found := hL.found.strike hL.nodup hc
  mirrored := hL.mirrored
  next k fwd hfwd := by
    obtain ⟨back, a, b, s, r, hj, hnode⟩ := hL.next k fwd hfwd
    exact ⟨back, a, b, s, r, hj.shrink hi, hnode⟩
  prev k back hback := by
    obtain ⟨fwd, a, b, s, r, hj, hnode⟩ := hL.prev k back hback
    exact ⟨fwd, a, b, s, r, hj.shrink hi, hnode⟩
  once := hL.once
  apart := hL.apart

/-- Pipes of the node that is gone are missed no more. -/
theorem Wired.shrink (hw : L.Wired fun s r l ↦ E s r l ∨ touching c.key s r l) :
    (L.shrink c).Wired E := by
  intro s hs r hr q hq p hp hl hnot a x ha hax hsx
  obtain ⟨hs, hskey⟩ := mem_cores_shrink.1 hs
  obtain ⟨hr, hrkey⟩ := mem_cores_shrink.1 hr
  exact hw s hs r hr q hq p hp hl (fun he ↦ he.elim hnot fun ht ↦ ht.elim hskey hrkey) a x
    ha hax hsx

/-- An influence that is listed is between other rules. -/
theorem Ranks.shrink {k : Handle} {i : Influence} (hi : L.Isolated c.key) (hr : L.Ranks k i m n) :
    (L.shrink c).Ranks k i m n :=
  { hr with
    influencer := (core?_shrink_of_ne (Isolated.ne_of_mem hi.won hr.effect)).trans hr.influencer
    influenced := (core?_shrink_of_ne (Isolated.ne_of_mem hi.lost hr.loss)).trans hr.influenced }

/-- Influences between other rules stay in order. -/
theorem Ordered.shrink (ho : L.Ordered X) (hi : L.Isolated c.key) : (L.shrink c).Ordered X where
  influences := ho.influences
  lost k j hj := by
    obtain ⟨i, hfind, hkey, hr⟩ := ho.lost k j hj
    exact ⟨i, hfind, hkey, fun hX ↦ (hr hX).imp fun m ⟨n, hr⟩ ↦ ⟨n, hr.shrink hi⟩⟩
  won k j hj := by
    obtain ⟨i, hfind, hkey, hr⟩ := ho.won k j hj
    exact ⟨i, hfind, hkey, fun hX ↦ (hr hX).imp fun m ⟨n, hr⟩ ↦ ⟨n, hr.shrink hi⟩⟩
  place s hs t ht := ho.place s (mem_cores_shrink.1 hs).1 t (mem_cores_shrink.1 ht).1

/-- Influences of the node that is gone are missed no more. -/
theorem Ranked.shrink (hr : L.Ranked fun m n ↦ R m n ∨ involving c.key m n) :
    (L.shrink c).Ranked R := by
  intro s hs t ht table place place' w w' hks hkt hlt hnot port hport hport' p q x hp hq hpx hqx
  obtain ⟨hs, hskey⟩ := mem_cores_shrink.1 hs
  obtain ⟨ht, htkey⟩ := mem_cores_shrink.1 ht
  exact hr s hs t ht table place place' w w' hks hkt hlt
    (fun he ↦ he.elim hnot fun hinv ↦ hinv.elim htkey hskey) port hport hport' p q x hp hq hpx hqx

/-- **Flows do not notice that a node goes at which there are none.** -/
theorem shift_shrink (hfree : ∀ h f, F.find? h = some f → f.node ≠ c.key) :
    Shift L (L.shrink c) F D where
  keyMask := rfl
  core h f hf := core?_shrink_of_ne (hfree h f hf)
  kept _ _ _ _ _ _ _ hrun := hrun
  runs _ _ hrun := .inl hrun
  less h f _ hf ht := .inl ((taken_congr (core?_shrink_of_ne (hfree h f hf)) rfl rfl).2 ht)
  more h f _ hf ht := .inl ((taken_congr (core?_shrink_of_ne (hfree h f hf)) rfl rfl).1 ht)

end Layout

/-! ### In a network -/

/-- The node lists no pipes, influences or flows. -/
structure Node.Bare (n : Node) : Prop where
  next : n.next = []
  prev : n.prev = []
  lost : n.lost = []
  won : n.won = []
  flows : n.flows = []

namespace Engine

theorem tied_enrol {list : Node → List Handle} {c : Node} (hnil : list c = []) :
    (net.enrol c).tied list = net.tied list := by
  funext k
  simp only [Network.tied, Network.nodeAt?, Network.enrol, List.find?_append]
  cases net.nodes.find? (·.key == k) with
  | some m => rfl
  | none =>
    rw [Option.none_or, List.find?_singleton]
    split
    · exact hnil
    · rfl

/-- Entering a bare node makes the layout grow, and nothing more. -/
theorem layout_enrol (hc : c.Bare) : (net.enrol c).layout = net.layout.grow c := by
  simp only [Network.layout, tied_enrol hc.next, tied_enrol hc.prev, tied_enrol hc.lost,
    tied_enrol hc.won]
  simp only [Network.enrol, List.map_append, List.map_cons, List.map_nil]
  rfl

/-- **Adding a node at which nothing is yet** changes the layout and nothing else. -/
theorem Leads.addNode {node : NodeKey → Node} (hl : Leads (Engine.addNode node) net key net')
    (hbare : ∀ k, (node k).Bare) :
    key = net.nextKey ∧ net'.layout = net.layout.grow (node key) ∧ net'.flows = net.flows ∧
      net'.roster = net.roster ∧ net' = net.enrol (node key) := by
  rw [Engine.addNode, leads_network_bind, leads_update_bind, leads_pure] at hl
  obtain ⟨rfl, rfl⟩ := hl
  have hc := hbare net.nextKey
  exact ⟨rfl, layout_enrol hc, rfl, tied_enrol hc.flows, rfl⟩

/-- The new node is found under its key. -/
theorem nodeAt?_append {c : Node} (hL : net.layout.WellFormed) (hc : c.key = net.nextKey)
    (hnodes : net'.nodes = net.nodes ++ [c]) : net'.nodeAt? net.nextKey = some c := by
  have hnone : net.nodes.find? (·.key == net.nextKey) = none := by
    have := hL.core?_nextKey
    rwa [show net.layout.nextKey = net.nextKey from rfl, Layout.core?_layout,
      Option.map_eq_none_iff] at this
  simp [Network.nodeAt?, hnodes, List.find?_append, hnone, hc]

/-- **A new node is not connected to anything yet.** -/
theorem upheld_addNode {node : NodeKey → Node} (hl : Leads (addNode node) net key net')
    (hU : Upheld net D X E R) (hkey : ∀ k, (node k).key = k) (hbare : ∀ k, (node k).Bare)
    (hproper : ∀ k, (node k).core.Proper)
    (hadmits : net.registry.Admits net.layout.cores (node key).core) :
    Upheld net' D X (fun s r l ↦ E s r l ∨ touching key s r l)
      (fun m c ↦ R m c ∨ involving key m c) ∧
      net'.flows = net.flows ∧ net'.layout = net.layout.grow (node key) ∧ key = net.nextKey ∧
      net'.nodeAt? key = some (node key) ∧ ∀ h f, net'.flows.find? h = some f → f.node ≠ key := by
  obtain ⟨rfl, hlayout, hflows, hroster, hnet⟩ := hl.addNode hbare
  have hckey : (node net.nextKey).key = net.layout.nextKey := hkey _
  have hfree : ∀ h f, net.flows.find? h = some f → f.node ≠ net.nextKey := by
    intro h f hf he
    obtain ⟨m, hm⟩ := hU.inv.core hf
    rw [he] at hm
    exact absurd (hU.inv.layout.core?_nextKey.symm.trans hm) (by simp)
  refine ⟨⟨?_, ?_, ?_, ?_⟩, hflows, hlayout, rfl,
    nodeAt?_append hU.inv.layout (hkey _) (congrArg Network.nodes hnet), hflows ▸ hfree⟩
  · refine hU.inv.shift (hlayout ▸ Layout.shift_grow fun h f hf ↦ ?_) (fun _ he ↦ he)
      (hlayout ▸ hU.inv.layout.grow hckey (hproper _) hadmits) hflows hroster
    exact hckey ▸ hfree h f hf
  · exact hlayout ▸ hU.ordered.grow hadmits
  · have hw := Layout.Wired.grow (c := node net.nextKey) hU.wired
    rw [hckey, ← hlayout] at hw
    exact hw
  · have hr := Layout.Ranked.grow (c := node net.nextKey) hU.ranked
    rw [hckey, ← hlayout] at hr
    exact hr

theorem tied_strike {list : Node → List Handle} (hnil : net.tied list c.key = []) :
    (net.strike c).tied list = net.tied list := by
  funext k
  simp only [Network.tied, Network.nodeAt?, Network.strike, List.find?_filter] at hnil ⊢
  by_cases hk : k = c.key
  · subst hk
    rw [List.find?_eq_none.2 (by simp)]
    exact hnil.symm
  · congr 2
    funext n
    by_cases hn : n.key = k
    · simp [hn, hk]
    · simp [hn]

/-- Striking an isolated node makes the layout shrink, and nothing more. -/
theorem layout_strike (hi : net.layout.Isolated c.key) :
    (net.strike c).layout = net.layout.shrink c := by
  simp only [Network.layout, tied_strike hi.next, tied_strike hi.prev, tied_strike hi.lost,
    tied_strike hi.won]
  simp only [Network.strike, Layout.shrink, List.filter_map]
  rfl

/-- **Erasing a node at which nothing is** changes the layout and nothing else. -/
theorem Leads.eraseNode (hl : Leads (Engine.eraseNode key) net () net')
    (hi : net.layout.Isolated key) (hroster : net.roster key = []) :
    ∃ c, net.nodeAt? key = some c ∧ net' = net.strike c ∧ net'.layout = net.layout.shrink c ∧
      net'.flows = net.flows ∧ net'.roster = net.roster := by
  rw [Engine.eraseNode, leads_node_bind] at hl
  obtain ⟨c, hc, hl⟩ := hl
  obtain rfl := leads_update.1 hl
  obtain ⟨-, rfl⟩ := nodeAt?_eq_some hc
  exact ⟨c, hc, rfl, layout_strike hi, rfl, tied_strike hroster⟩

/-- **A node goes that has neither pipes nor influences nor flows.** -/
theorem upheld_eraseNode (hl : Leads (eraseNode key) net () net')
    (hU : Upheld net D X (fun s r l ↦ E s r l ∨ touching key s r l)
      fun m n ↦ R m n ∨ involving key m n)
    (hi : net.layout.Isolated key) (hfree : ∀ h f, net.flows.find? h = some f → f.node ≠ key) :
    ∃ c, c.key = key ∧ Upheld net' D X E R ∧ net'.layout = net.layout.shrink c ∧
      net'.flows = net.flows := by
  have hempty : net.roster key = [] := by
    refine List.eq_nil_iff_forall_not_mem.2 fun h hmem ↦ ?_
    obtain ⟨f, hf, hnode⟩ := hU.inv.listed.only key h hmem
    exact hfree h f hf hnode
  obtain ⟨c, hc, -, hlayout, hflows, hroster⟩ := hl.eraseNode hi hempty
  obtain ⟨hmem, rfl⟩ := nodeAt?_eq_some hc
  refine ⟨c, rfl, ⟨?_, ?_, ?_, ?_⟩, hlayout, hflows⟩
  · exact hU.inv.shift (hlayout ▸ Layout.shift_shrink hfree) (fun _ he ↦ he)
      (hlayout ▸ hU.inv.layout.shrink (List.mem_map_of_mem hmem) hi) hflows hroster
  · exact hlayout ▸ hU.ordered.shrink hi
  · exact hlayout ▸ hU.wired.shrink
  · exact hlayout ▸ hU.ranked.shrink

end Engine

end HeaderFlow
