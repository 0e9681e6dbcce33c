import HeaderFlow.Proofs.Network.Invariant

/-!
# Dropping flows

Dropping a flow takes everything below it along. What is left is as it was before (`Pruned`), so the
invariant has to be looked at in one place only: the flow that the dropped one came from **owes its
pipe**.

The walk goes down the children, which are orphans from the moment on when they are taken from their
parent. `Drops` is what is asked of a way of dropping one flow, and `forM_drops` does a list of
siblings. The fuel suffices because depth is less than the number of slots.

## Orphans and debts

While a tree is dropped, flows lose their parents before they go. The set of orphans is a parameter
of the invariant, and each step removes one of them: its children become orphans first
(`inv_detachChildren`), are dropped one after the other (`Bereaves`), and then nothing hangs on the
flow any more and it may be discarded (`inv_discardFlow`).

Whatever is not deeper than the dropped flow is left alone (`Spares`). That is why a loop over a
list of flows may drop one of them and go on with the next: the others are still there, unless they
were below it.

## Which flows go

* `inv_removeFlow` drops one flow of a list together with its tree, and takes it off the flow it
  came from.
* `inv_dropBelow` drops what came from a flow, and keeps the flow itself. It is computed anew after
  that.
* `inv_removeEach` drops all flows with a property that depends on their ways, such as the pipe they
  came by.
-/

namespace HeaderFlow.Engine

variable {net net' : Network} {O : Set Handle} {D : Set Debt} {d e fuel : Nat} {h c : Handle}
  {f : Flow} {key : NodeKey} {F F' F'' : Arena Flow} {P Q : Handle → Prop}

/-- Some flows are gone, but none of those with the property, and what is left is as it was. -/
structure Pruned (P : Handle → Prop) (F F' : Arena Flow) : Prop where
  old : ∀ g k, F'.find? g = some k → F.find? g = some k
  kept : ∀ g, P g → F'.find? g = F.find? g
  stable : Stable F F'
  size : F'.slots.size = F.slots.size

namespace Pruned

theorem refl (P : Handle → Prop) (F : Arena Flow) : Pruned P F F :=
  ⟨fun _ _ hk ↦ hk, fun _ _ ↦ rfl, .refl F, rfl⟩

/-- Dropping once and again is dropping. -/
theorem trans (h₁ : Pruned P F F') (h₂ : Pruned P F' F'') : Pruned P F F'' :=
  ⟨fun g k hk ↦ h₁.old g k (h₂.old g k hk), fun g hg ↦ (h₂.kept g hg).trans (h₁.kept g hg),
    h₁.stable.trans h₂.stable, h₂.size.trans h₁.size⟩

theorem imp (hp : Pruned P F F') (hPQ : ∀ g, Q g → P g) : Pruned Q F F' :=
  { hp with kept := fun g hg ↦ hp.kept g (hPQ g hg) }

/-- A flow that is left is as deep as it was: nothing above it has gone. -/
theorem depth_old (hp : Pruned P F F') (hd : Depth F' h d) : Depth F h d :=
  hd.transport (P := fun _ ↦ True)
    (fun g k _ hk ↦ ⟨⟨k, hp.old g k hk, rfl⟩, fun _ _ ↦ trivial⟩) trivial

/-- Flows nearer to a source than all that are gone have kept their depth. -/
theorem depth_kept (hp : Pruned (fun g ↦ ∃ k ≤ e, Depth F g k) F F') (hd : Depth F h d)
    (hle : d ≤ e) : Depth F' h d := by
  refine hd.transport (P := fun g ↦ ∃ k ≤ e, Depth F g k) (fun g k hg hk ↦ ?_) ⟨d, hle, hd⟩
  refine ⟨⟨k, (hp.kept g hg).trans hk, rfl⟩, fun p hkp ↦ ?_⟩
  obtain ⟨j, hj, hdj⟩ := hg
  obtain ⟨i, rfl, hdi⟩ := hdj.parent hk hkp
  exact ⟨i, by omega, hdi⟩

/-- Flows that are not deeper than those that have gone are spared. -/
theorem spares (hp : Pruned (fun g ↦ ∃ k ≤ d, Depth F g k) F F') (hle : e ≤ d + 1) :
    Spares e F F' := fun g k l hdk hlt hl ↦
  ⟨l, (hp.kept g ⟨k, by omega, hdk⟩).trans hl, .refl l⟩

/-- A flow that loses its children, and whatever is below it, is gone itself in the end. -/
theorem erase {F₁ : Arena Flow} {f' : Flow} (hr : Replaces F F₁ h f f') (hs : Stable F F₁)
    (hsize : F₁.slots.size = F.slots.size) (hp : Pruned (fun g ↦ ∃ i ≤ e, Depth F₁ g i) F₁ F') :
    Pruned (fun g ↦ (∃ i ≤ e, Depth F g i) ∧ g ≠ h) F (F'.erase h) := by
  refine ⟨fun g k hk ↦ ?_, ?_, .trans hs (.trans hp.stable (.erase _ _)), ?_⟩
  · rw [Arena.find?_erase] at hk
    split at hk
    · exact absurd hk (by simp)
    · rename_i hne
      rw [← hr.other g hne]
      exact hp.old g k hk
  · rintro g ⟨⟨i, hi, hdi⟩, hne⟩
    rw [Arena.find?_erase, if_neg hne, hp.kept g ⟨i, hi, hr.depth.2 hdi⟩, hr.other g hne]
  · rw [Arena.size_slots_erase, hp.size, hsize]

end Pruned

/-! ### Flows without children -/

/-- What came from a flow without children is on no list. -/
theorem loose_of_children_nil {k : Flow} (hI : Inv net O D) (hf : net.flows.find? h = some f)
    (hnil : f.children = []) (hk : net.flows.find? c = some k) (hp : k.parent = some h) (g : Handle)
    (l : Flow) (hl : net.flows.find? g = some l) : c ∉ l.children := by
  intro hmem
  obtain ⟨k', hk', hp'⟩ := hI.forest.children g l c hl hmem
  obtain rfl := Option.some.inj (hk.symm.trans hk')
  obtain rfl := Option.some.inj (hp.symm.trans hp')
  obtain rfl := Option.some.inj (hf.symm.trans hl)
  exact absurd (hnil ▸ hmem) List.not_mem_nil

/-- Nothing came from a flow without children, if no orphan is deeper than the flow. -/
theorem leaf_of_children_nil (hI : Inv net O D) (hf : net.flows.find? h = some f)
    (hnil : f.children = []) (hd : Depth net.flows h d)
    (hO : ∀ o ∈ O, ∀ i, Depth net.flows o i → i ≤ d) (c : Handle) (g : Flow)
    (hg : net.flows.find? c = some g) : g.parent ≠ some h := by
  intro hp
  by_cases hc : c ∈ O
  · have := hO c hc _ (.step hg hp hd)
    omega
  · exact absurd (hI.forest.listed c g h f hg hc hp hf) (hnil ▸ List.not_mem_nil)

/-! ### Single steps -/

/-- Taking the children from a flow is quiet otherwise. -/
theorem Leads.detachChildren (hnodup : (net.nodes.map Node.key).Nodup)
    (hl : Leads (detachChildren h f) net () net') :
    Quiet (withFlow net h fun f ↦ { f with children := [] }) net' := by
  rw [Engine.detachChildren, leads_updateFlow_bind, leads_network_bind] at hl
  rcases hl.ite with ⟨-, hl⟩ | ⟨-, hl⟩
  · exact quiet_notify hnodup hl
  · obtain ⟨-, rfl⟩ := leads_pure.1 hl
    exact .refl _

/-- A flow whose children are taken from it leaves them orphans. -/
theorem inv_detachChildren (hI : Inv net O D) (hf : net.flows.find? h = some f)
    (hl : Leads (detachChildren h f) net () net') : Inv net' (O ∪ {c | c ∈ f.children}) D := by
  refine (hl.detachChildren (map_key_cores net ▸ hI.layout.nodup)).inv ?_
  refine hI.withChildren (fun _ ↦ .inl) hf ⟨[], rfl⟩ fun F' hr ↦ ?_
  refine hr.forest hI.forest (fun c hc ↦ absurd hc List.not_mem_nil) (fun c g hg hcO hp ↦ ?_)
    (fun _ _ _ _ _ _ hmem ↦ .inl hmem)
      (fun hlooped ↦ hI.forest.looped h f hf hlooped) List.nodup_nil
  exact absurd (.inr (hI.forest.listed c g h f hg (fun hmem ↦ hcO (.inl hmem)) hp hf)) hcO

/-- Only the flow itself changes when its children are taken from it. -/
theorem Leads.replaces_detachChildren (hl : Leads (Engine.detachChildren h f) net () net')
    (hI : Inv net O D) (hf : net.flows.find? h = some f) :
    Replaces net.flows net'.flows h f { f with children := [] } :=
  (hl.detachChildren (map_key_cores net ▸ hI.layout.nodup)).flows ▸
    Replaces.modify (k := fun f ↦ { f with children := [] }) hf rfl

/-- What hung on a flow came from it. -/
theorem parent_of_replaces {f' k : Flow} (hr : Replaces net.flows F h f f') (hI : Inv net O D)
    (hc : c ∈ f.children) (hk : F.find? c = some k) : k.parent = some h := by
  obtain ⟨g, hg, hp⟩ := hI.forest.children h f c hr.before hc
  obtain ⟨k', hk', hway, -⟩ := hr.old hk
  rw [hg] at hk'
  exact (Flow.parent_eq hway).trans (Option.some.inj hk' ▸ hp)

/-- **Discarding a flow** erases it and takes it off the list of its node. -/
theorem Leads.discardFlow (hl : Leads (discardFlow h key) net () net') :
    net'.flows = net.flows.erase h ∧ net'.layout = net.layout ∧
      ∀ k, net'.roster k = if k = key then (net.roster k).filter (· ≠ h) else net.roster k := by
  rw [Engine.discardFlow, leads_update_bind, leads_updateNode] at hl
  subst hl
  refine ⟨rfl, layout_withNode fun _ _ _ ↦ ⟨rfl, rfl, rfl, rfl, rfl⟩, fun k ↦ ?_⟩
  rw [Network.roster, tied_withNode (by exact fun _ _ hkey ↦ hkey)]
  split
  · rename_i hk
    rw [hk, Network.roster, Network.tied]
    show (net.nodeAt? key).elim _ _ = _
    cases net.nodeAt? key <;> rfl
  · rfl

/-- What the flow that a flow came from owes when it goes. -/
def owed (f : Flow) : Set Debt :=
  {d | ∃ p fwd, f.parent = some p ∧ f.pipe = some fwd ∧ d = .pending p fwd}

/-- **An orphan on which nothing hangs may be discarded.** -/
theorem inv_discardFlow (hI : Inv net (O ∪ {h}) (D ∪ {d | d.flow = h}))
    (hf : net.flows.find? h = some f)
    (hleaf : ∀ c g, net.flows.find? c = some g → g.parent ≠ some h)
    (hloose : ∀ g k, net.flows.find? g = some k → h ∉ k.children)
    (hl : Leads (discardFlow h f.node) net () net') : Inv net' O (D ∪ owed f) := by
  obtain ⟨hflows, hlayout, hroster⟩ := hl.discardFlow
  have hold : Arena.Lacks h net.flows net'.flows := hflows ▸ Arena.lacks_erase
  refine ⟨hlayout ▸ hI.layout, hflows ▸ Arena.valid_erase hI.valid, ⟨fun g k hk hg ↦ ?_,
    fun k g hkg ↦ ?_, fun k ↦ ?_⟩, ?_, ?_⟩
  · obtain ⟨hne, hk⟩ := (hold g k).1 hk
    have hmem := hI.listed.all g k hk fun hmem ↦ hmem.elim hg hne
    rw [hroster]
    split
    · exact List.mem_filter.2 ⟨hmem, by simpa using hne⟩
    · exact hmem
  · rw [hroster] at hkg
    have hmem : g ∈ net.roster k ∧ (k = f.node → g ≠ h) := by
      split at hkg
      · obtain ⟨hmem, hne⟩ := List.mem_filter.1 hkg
        exact ⟨hmem, fun _ ↦ by simpa using hne⟩
      · exact ⟨hkg, fun he ↦ absurd he ‹_›⟩
    obtain ⟨l, hl', hnode⟩ := hI.listed.only k g hmem.1
    refine ⟨l, (hold g l).2 ⟨fun he ↦ hmem.2 ?_ he, hl'⟩, hnode⟩
    rw [he, hf] at hl'
    exact Option.some.inj hl' ▸ hnode.symm
  · rw [hroster]
    split
    · exact (hI.listed.nodup k).filter _
    · exact hI.listed.nodup k
  · rw [hlayout]
    exact hI.forest.lack hold hleaf hloose
  · rw [hlayout]
    refine hI.sound.lack hold hf hleaf (fun d hmem hne ↦ .inl (hmem.resolve_right hne)) ?_
    exact fun p fwd hp hpipe ↦ .inr ⟨p, fwd, hp, hpipe, rfl⟩

/-! ### Whole subtrees -/

/-- The computation drops an orphan of depth `e` and everything below it, in an arena of the given
size. -/
structure Drops (drop : Handle → Engine Unit) (e size : Nat) : Prop where
  dead : ∀ c net net', net.flows.find? c = none → Leads (drop c) net () net' → net' = net
  live : ∀ c k net net' O D, Leads (drop c) net () net' → Inv net (O ∪ {c}) D →
    net.flows.find? c = some k → Depth net.flows c e →
    (∀ o ∈ O, ∀ i, Depth net.flows o i → i ≤ e) →
    (∀ g k, net.flows.find? g = some k → c ∉ k.children) → net.flows.slots.size = size →
    Inv net' O (D ∪ owed k) ∧ net'.layout = net.layout ∧ net'.flows.find? c = none ∧
      Pruned (fun g ↦ (∃ i ≤ e, Depth net.flows g i) ∧ g ≠ c) net.flows net'.flows

/-- Flows that came from `h` are dropped, with those in `rest` still to come. Whatever is not deeper
than `h` is as it was. -/
structure Bereaves (net : Network) (O : Set Handle) (D : Set Debt) (h : Handle) (d : Nat)
    (rest : List Handle) (mid : Network) : Prop where
  inv : Inv mid (O ∪ {c | c ∈ rest}) (D ∪ {d | ∃ fwd, d = .pending h fwd})
  layout : mid.layout = net.layout
  pruned : Pruned (fun g ↦ ∃ i ≤ d, Depth net.flows g i) net.flows mid.flows
  came : ∀ c ∈ rest, ∀ k, net.flows.find? c = some k → k.parent = some h

/-- One of the flows has been dropped. -/
theorem Bereaves.step {drop : Handle → Engine Unit} {mid mid' : Network} {rest : List Handle}
    (hB : Bereaves net O D h d (c :: rest) mid) (hl : Leads (drop c) mid () mid')
    (hdrop : Drops drop (d + 1) net.flows.slots.size) (hf : net.flows.find? h = some f)
    (hnil : f.children = []) (hd : Depth net.flows h d)
    (hO : ∀ o ∈ O, ∀ i, Depth net.flows o i → i ≤ d + 1) : Bereaves net O D h d rest mid' := by
  obtain ⟨hI, hlayout, hpruned, hcame⟩ := hB
  have hrest : ∀ r ∈ rest, ∀ k, net.flows.find? r = some k → k.parent = some h := fun r hr ↦
    hcame r (List.mem_cons_of_mem _ hr)
  cases hk : mid.flows.find? c with
  | none =>
    obtain rfl := hdrop.dead c mid mid' hk hl
    refine ⟨hI.strengthen fun g hg hlive ↦ hg.imp_right fun hmem ↦ ?_, hlayout, hpruned, hrest⟩
    refine (List.mem_cons.1 hmem).resolve_left ?_
    rintro rfl
    obtain ⟨k, hk'⟩ := hlive
    exact absurd (hk.symm.trans hk') (by simp)
  | some k =>
    have hh : mid.flows.find? h = some f := (hpruned.kept h ⟨d, Nat.le_refl d, hd⟩).trans hf
    have hdh : Depth mid.flows h d := hpruned.depth_kept hd (Nat.le_refl d)
    have hkp := hcame c List.mem_cons_self k (hpruned.old c k hk)
    have hI' : Inv mid ((O ∪ {r | r ∈ rest}) ∪ {c}) (D ∪ {d | ∃ fwd, d = .pending h fwd}) :=
      hI.strengthen fun g hg _ ↦ hg.elim (fun hmem ↦ .inl (.inl hmem)) fun hmem ↦
        (List.mem_cons.1 hmem).elim .inr fun hmem ↦ .inl (.inr hmem)
    have hdeep : ∀ o ∈ O ∪ {r | r ∈ rest}, ∀ i, Depth mid.flows o i → i ≤ d + 1 := by
      rintro o (ho | ho) i hdi
      · exact hO o ho i (hpruned.depth_old hdi)
      · obtain ⟨k', hk'⟩ := hdi.live
        obtain ⟨j, rfl, hdj⟩ := hdi.parent hk' (hrest o ho k' (hpruned.old o k' hk'))
        have := hdj.unique hdh
        omega
    obtain ⟨hInv, hlayout', -, hpruned'⟩ := hdrop.live c k mid mid' (O ∪ {r | r ∈ rest}) _ hl hI' hk
      (.step hk hkp hdh) hdeep (loose_of_children_nil hI hh hnil hk hkp) hpruned.size
    refine ⟨hInv.mono fun d hmem ↦ hmem.elim id ?_, hlayout'.trans hlayout, hpruned.trans ?_, hrest⟩
    · rintro ⟨p, fwd, hp, -, rfl⟩
      rw [hkp] at hp
      exact .inr ⟨fwd, Option.some.inj hp ▸ rfl⟩
    · refine hpruned'.imp fun g hg ↦ ?_
      obtain ⟨i, hi, hdi⟩ := hg
      have hdi' := hpruned.depth_kept hdi hi
      refine ⟨⟨i, by omega, hdi'⟩, ?_⟩
      rintro rfl
      have := hdi'.unique (.step hk hkp hdh)
      omega

/-- **Dropping a list of flows that hung on one flow.** The flow itself, and whatever is not deeper,
stays. -/
theorem forM_drops {drop : Handle → Engine Unit} {size : Nat} {l : List Handle}
    (hdrop : Drops drop (d + 1) size) (hl : Leads (l.forM drop) net () net')
    (hI : Inv net (O ∪ {c | c ∈ l}) D) (hf : net.flows.find? h = some f) (hnil : f.children = [])
    (hd : Depth net.flows h d) (hO : ∀ o ∈ O, ∀ i, Depth net.flows o i → i ≤ d + 1)
    (hchild : ∀ c ∈ l, ∀ k, net.flows.find? c = some k → k.parent = some h)
    (hsize : net.flows.slots.size = size) :
    Inv net' O (D ∪ {d | ∃ fwd, d = .pending h fwd}) ∧ net'.layout = net.layout ∧
      Pruned (fun g ↦ ∃ i ≤ d, Depth net.flows g i) net.flows net'.flows := by
  subst hsize
  have hrun : Bereaves net O D h d [] net' :=
    hl.forM (I := Bereaves net O D h d) ⟨hI.mono fun _ ↦ .inl, rfl, .refl _ _, hchild⟩
      fun _ _ _ _ _ hB hstep ↦ hB.step hstep hdrop hf hnil hd hO
  refine ⟨hrun.inv.strengthen fun g hg _ ↦ hg.resolve_right ?_, hrun.layout, hrun.pruned⟩
  exact List.not_mem_nil

/-- A flow that is not there any more was dropped along with one above it, and nothing is done. -/
theorem dropTree_dead (hc : net.flows.find? c = none) (hl : Leads (dropTree fuel c) net () net') :
    net' = net := by
  cases fuel with
  | zero => exact (leads_pure.1 hl).2
  | succ fuel =>
    rw [dropTree, leads_flow?_bind, hc] at hl
    exact (leads_pure.1 hl).2

/-- **Dropping a flow and everything below it**, with fuel for the depth that is left. -/
theorem dropTree_drops {size : Nat} (hfuel : size ≤ fuel + e) : Drops (dropTree fuel) e size := by
  -- The induction is on the fuel, which is at least the height that a tree can have below depth
  -- `e`. With no fuel left there is no flow so deep.
  induction fuel generalizing e with
  | zero =>
    refine ⟨fun _ _ _ hc ↦ dropTree_dead hc, fun c k net net' O D _ _ _ hd _ _ hsize ↦ ?_⟩
    have := hd.lt_size
    omega
  | succ fuel ih =>
    refine ⟨fun _ _ _ hc ↦ dropTree_dead hc, fun h f net net' O D hl hI hf hd hO hloose hsize ↦ ?_⟩
    rw [dropTree, leads_flow?_bind, hf] at hl
    obtain ⟨⟨⟩, net₁, hdetach, hl⟩ := hl.bind
    obtain ⟨⟨⟩, net₂, hloop, hdiscard⟩ := hl.bind
    have hI₁ := inv_detachChildren hI hf hdetach
    have hq := hdetach.detachChildren (map_key_cores net ▸ hI.layout.nodup)
    have hr := hdetach.replaces_detachChildren hI hf
    have hd₁ := hr.depth.2 hd
    have hsize₁ : net₁.flows.slots.size = net.flows.slots.size := by
      rw [hq.flows, Arena.size_slots_modify]
    -- No orphan is deeper than the root of the tree, so the children can be dropped while it is
    -- one.
    have hdeep : ∀ o ∈ O ∪ {h}, ∀ i, Depth net₁.flows o i → i ≤ e := by
      rintro o (ho | rfl) i hdi
      · exact hO o ho i (hr.depth.1 hdi)
      · exact ((hr.depth.1 hdi).unique hd).le
    obtain ⟨hI₂, hlayout₂, hpruned⟩ := forM_drops (ih (by omega)) hloop hI₁ hr.after rfl hd₁
      (fun o ho i hdi ↦ Nat.le_succ_of_le (hdeep o ho i hdi))
      (fun c hc k hk ↦ parent_of_replaces hr hI hc hk) (hsize₁.trans hsize)
    -- The walk over the children has left the root alone, since they are deeper.
    have hh₂ : net₂.flows.find? h = some { f with children := [] } :=
      (hpruned.kept h ⟨e, Nat.le_refl e, hd₁⟩).trans hr.after
    have hleaf := leaf_of_children_nil hI₂ hh₂ rfl (hpruned.depth_kept hd₁ (Nat.le_refl e))
      fun o ho i hdi ↦ hdeep o ho i (hpruned.depth_old hdi)
    have hloose₂ : ∀ g k, net₂.flows.find? g = some k → h ∉ k.children := by
      intro g k hk hmem
      have hk₁ := hpruned.old g k hk
      by_cases hg : g = h
      · subst hg
        rw [hr.after] at hk₁
        exact absurd (Option.some.inj hk₁ ▸ hmem) List.not_mem_nil
      · rw [hr.other g hg] at hk₁
        exact hloose g k hk₁ hmem
    have hI₂' : Inv net₂ (O ∪ {h}) (D ∪ {d | d.flow = h}) := by
      refine hI₂.mono fun d hmem ↦ hmem.imp_right ?_
      rintro ⟨fwd, rfl⟩
      rfl
    have hI' := inv_discardFlow (f := { f with children := [] }) hI₂' hh₂ hleaf hloose₂ hdiscard
    obtain ⟨hflows, hlayout, -⟩ := hdiscard.discardFlow
    refine ⟨hI', hlayout.trans (hlayout₂.trans hq.layout), ?_, ?_⟩
    · rw [hflows, Arena.find?_erase, if_pos rfl]
    · rw [hflows]
      exact .erase hr (hq.flows ▸ .modify fun _ ↦ rfl) hsize₁ hpruned

/-- The number of slots is fuel enough for every tree. -/
theorem dropSubtree_drops (e size : Nat) : Drops dropSubtree e size := by
  refine ⟨fun c net net' hc hl ↦ dropTree_dead hc (leads_network_bind.1 hl),
    fun c k net net' O D hl hI hk hd hO hloose hsize ↦ ?_⟩
  rw [dropSubtree, leads_network_bind, hsize] at hl
  exact (dropTree_drops (Nat.le_add_right size e)).live c k net net' O D hl hI hk hd hO hloose hsize

/-! ### Dropping below a flow, and a flow from another -/

/-- **Dropping everything below a flow** leaves the flow and whatever is not deeper. -/
theorem inv_dropBelow (hl : Leads (dropBelow h) net () net') (hI : Inv net ∅ D)
    (hf : net.flows.find? h = some f) (hd : Depth net.flows h d) :
    Inv net' ∅ (D ∪ {d | ∃ fwd, d = .pending h fwd}) ∧ Frame (d + 1) net net' ∧
      net'.flows.find? h = some { f with children := [] } ∧ Depth net'.flows h d ∧
      ∀ c g, net'.flows.find? c = some g → g.parent ≠ some h := by
  rw [dropBelow, leads_flow?_bind, hf] at hl
  obtain ⟨⟨⟩, net₁, hdetach, hloop⟩ := hl.bind
  have hI₁ := inv_detachChildren hI hf hdetach
  have hq := hdetach.detachChildren (map_key_cores net ▸ hI.layout.nodup)
  have hr := hdetach.replaces_detachChildren hI hf
  have hd₁ := hr.depth.2 hd
  obtain ⟨hI', hlayout, hpruned⟩ := forM_drops (dropSubtree_drops (d + 1) _) hloop hI₁ hr.after rfl
    hd₁ (fun o ho ↦ absurd ho (Set.notMem_empty o))
    (fun c hc k hk ↦ parent_of_replaces hr hI hc hk) rfl
  have hframe₁ : Frame (d + 1) net net₁ := by
    refine .trans (frame_withChildren (h := h) fun f ↦ ⟨[], rfl⟩) (hq.frame (d + 1))
  have hh : net'.flows.find? h = some { f with children := [] } :=
    (hpruned.kept h ⟨d, Nat.le_refl d, hd₁⟩).trans hr.after
  have hd' := hpruned.depth_kept hd₁ (Nat.le_refl d)
  exact ⟨hI', hframe₁.trans ⟨hlayout, hpruned.stable, hpruned.spares (Nat.le_refl _)⟩, hh, hd',
    leaf_of_children_nil hI' hh rfl hd' fun o ho ↦ absurd ho (Set.notMem_empty o)⟩

/-- No flow is new, and those that are left differ at most in what came from them. -/
def Fewer (F F' : Arena Flow) : Prop :=
  ∀ g k', F'.find? g = some k' → ∃ k, F.find? g = some k ∧ k.Alike k'

/-- Flows go and none comes, in one step as in several. -/
theorem Fewer.trans (h₁ : Fewer F F') (h₂ : Fewer F' F'') : Fewer F F'' := by
  intro g k'' hk''
  obtain ⟨k', hk', ha⟩ := h₂ g k'' hk''
  obtain ⟨k, hk, hb⟩ := h₁ g k' hk'
  exact ⟨k, hk, hb.trans ha⟩

theorem removeFlow_dead (hh : net.flows.find? h = none) (hl : Leads (removeFlow h) net () net') :
    net' = net := by
  rw [removeFlow, leads_flow?_bind, hh] at hl
  exact (leads_pure.1 hl).2

/-- A flow that is taken from the one it came from is an orphan. -/
theorem inv_unlink (hl : Leads (unlink h f) net () net') (hI : Inv net ∅ D)
    (hf : net.flows.find? h = some f) :
    Inv net' {h} D ∧ (∀ e, Frame e net net') ∧ Fewer net.flows net'.flows ∧
      (∃ f', net'.flows.find? h = some f' ∧ f'.way = f.way) ∧
      ∀ g k, net'.flows.find? g = some k → h ∉ k.children := by
  cases hp : f.parent with
  | none =>
    rw [unlink, hp] at hl
    obtain ⟨-, rfl⟩ := leads_pure.1 hl
    refine ⟨hI.strengthen fun g hg ↦ absurd hg (Set.notMem_empty g), fun e ↦ .refl e _,
      fun g k hk ↦ ⟨k, hk, .refl k⟩, ⟨f, hf, rfl⟩, fun g k hk hmem ↦ ?_⟩
    -- A root is nobody's child.
    obtain ⟨f', hf', hp'⟩ := hI.forest.children g k h hk hmem
    rw [hf] at hf'
    obtain rfl := Option.some.inj hf'
    exact absurd (hp.symm.trans hp') (by simp)
  | some p =>
    rw [unlink, hp] at hl
    obtain rfl := leads_updateFlow.1 hl
    obtain ⟨q, hq⟩ := hI.forest.parent_live hf hp
    have hr := Replaces.modify (k := fun f : Flow ↦
      { f with children := f.children.filter (· ≠ h) }) hq rfl
    -- After it was taken off the list of its parent, nobody else lists it, since no other flow is
    -- its parent.
    have hloose : ∀ g k, (net.flows.modify p fun f ↦ { f with
        children := f.children.filter (· ≠ h) }).find? g = some k → h ∉ k.children := by
      intro g k hk hmem
      by_cases hg : g = p
      · subst hg
        rw [hr.after] at hk
        obtain rfl := Option.some.inj hk
        simp at hmem
      · rw [hr.other g hg] at hk
        obtain ⟨f', hf', hp'⟩ := hI.forest.children g k h hk hmem
        rw [hf] at hf'
        obtain rfl := Option.some.inj hf'
        rw [hp] at hp'
        exact hg (Option.some.inj hp').symm
    refine ⟨?_, fun e ↦ frame_withChildren fun f ↦ ⟨_, rfl⟩, fun g k' hk' ↦ ?_, ?_, hloose⟩
    · refine hI.withChildren (fun g hg ↦ absurd hg (Set.notMem_empty g)) hq ⟨_, rfl⟩ fun F' hr ↦ ?_
      refine hr.forest hI.forest (fun c hc ↦ ?_) (fun c g hg hcO hcp ↦ ?_)
        (fun c _ _ _ _ _ hmem ↦ absurd hmem (Set.notMem_empty c)) (fun hlooped ↦ ?_)
        ((hI.forest.nodup p q hq).filter _)
      · exact hI.forest.children p q c hq (List.mem_of_mem_filter hc)
      · have hmem := hI.forest.listed c g p q hg (Set.notMem_empty c) hcp hq
        exact List.mem_filter.2 ⟨hmem, by simpa using hcO⟩
      · exact hI.forest.looped p q hq hlooped
    · by_cases hg : g = p
      · subst hg
        rw [hr.after] at hk'
        exact ⟨q, hq, _, (Option.some.inj hk').symm⟩
      · rw [hr.other g hg] at hk'
        exact ⟨k', hk', .refl k'⟩
    · obtain ⟨f', hf', hway, -⟩ := hr.new hf
      exact ⟨f', hf', hway⟩

/-- **Removing a flow** with everything below it. -/
theorem inv_removeFlow (hl : Leads (removeFlow h) net () net') (hI : Inv net ∅ D)
    (hf : net.flows.find? h = some f) (hd : Depth net.flows h d) :
    Inv net' ∅ (D ∪ owed f) ∧ Frame d net net' ∧ Fewer net.flows net'.flows ∧
      net'.flows.find? h = none ∧
      ∀ g k, net.flows.find? g = some k → k.parent = none → g ≠ h →
        ∃ k', net'.flows.find? g = some k' ∧ k.Alike k' := by
  rw [removeFlow, leads_flow?_bind, hf] at hl
  obtain ⟨⟨⟩, net₁, hunlink, hdrop⟩ := hl.bind
  obtain ⟨hI₁, hframe, hfewer, ⟨f', hf', hway⟩, hloose⟩ := inv_unlink hunlink hI hf
  have hd₁ : Depth net₁.flows h d := (hframe (d + 1)).spares.depth hd (Nat.lt_succ_self d)
  obtain ⟨hI', hlayout, hgone, hpruned⟩ := (dropSubtree_drops d _).live h f' net₁ net' ∅ D hdrop
    (hI₁.strengthen fun g hg _ ↦ .inr hg) hf' hd₁ (fun o ho ↦ absurd ho (Set.notMem_empty o))
    hloose rfl
  have howed : owed f' = owed f := by
    rw [owed, owed, Flow.parent_eq hway, Flow.pipe_eq hway]
  refine ⟨howed ▸ hI', (hframe d).trans ⟨hlayout, hpruned.stable, fun g k l hdk hlt hl ↦ ?_⟩,
    hfewer.trans fun g k hk ↦ ⟨k, hpruned.old g k hk, .refl k⟩, hgone, fun g k hk hroot hne ↦ ?_⟩
  · refine ⟨l, (hpruned.kept g ⟨⟨k, by omega, hdk⟩, ?_⟩).trans hl, .refl l⟩
    rintro rfl
    have := hdk.unique hd₁
    omega
  · obtain ⟨k', hk', halike⟩ := (hframe 1).spares g 0 k (.root hk hroot) Nat.one_pos hk
    have hroot' := (Flow.parent_eq halike.way).trans hroot
    exact ⟨k', (hpruned.kept g ⟨⟨0, Nat.zero_le d, .root hk' hroot'⟩, hne⟩).trans hk', halike⟩

/-- **Removing all flows with a property that depends on their ways**, from a list on which they all
are. The flows that they came from owe the pipes. -/
theorem inv_removeEach {body : Handle → Engine Unit} {l : List Handle} {S : Flow → Prop}
    (hl : Leads (l.forM body) net () net') (hway : ∀ f f', f'.way = f.way → S f' → S f)
    (hbody : ∀ h ∈ l, ∀ net₁ net₂, Stable net.flows net₁.flows → Leads (body h) net₁ () net₂ →
      Leads (removeFlow h) net₁ () net₂ ∧ (∀ f, net₁.flows.find? h = some f → S f) ∨
        net₂ = net₁ ∧ ∀ f, net₁.flows.find? h = some f → ¬ S f)
    (hD : ∀ f p fwd w, S f → f.parent = some p → f.pipe = some fwd → net.layout.Runs fwd w →
      w.receiver = f.node → .pending p fwd ∈ D)
    (hI : Inv net ∅ D) (hall : ∀ h f, net.flows.find? h = some f → S f → h ∈ l) :
    Inv net' ∅ D ∧ Frame 0 net net' ∧ Fewer net.flows net'.flows ∧
      (∀ h f, net'.flows.find? h = some f → ¬ S f) ∧
      ∀ h f, net.flows.find? h = some f → f.parent = none → ¬ S f →
        ∃ f', net'.flows.find? h = some f' ∧ f.Alike f' := by
  -- What is said of the flows that are left is an invariant for a list of those still to come,
  -- which is empty in the end.
  suffices hrun : Inv net' ∅ D ∧ Frame 0 net net' ∧ Fewer net.flows net'.flows ∧
      (∀ h f, net'.flows.find? h = some f → S f → h ∈ ([] : List Handle)) ∧
      ∀ h f, net.flows.find? h = some f → f.parent = none → ¬ S f →
        ∃ f', net'.flows.find? h = some f' ∧ f.Alike f' from
    ⟨hrun.1, hrun.2.1, hrun.2.2.1, fun h f hf hS ↦ List.not_mem_nil (hrun.2.2.2.1 h f hf hS),
      hrun.2.2.2.2⟩
  refine hl.forM (I := fun rest mid ↦ Inv mid ∅ D ∧ Frame 0 net mid ∧ Fewer net.flows mid.flows ∧
      (∀ h f, mid.flows.find? h = some f → S f → h ∈ rest) ∧
      ∀ h f, net.flows.find? h = some f → f.parent = none → ¬ S f →
        ∃ f', mid.flows.find? h = some f' ∧ f.Alike f')
    ⟨hI, .refl _ _, fun g k hk ↦ ⟨k, hk, .refl k⟩, hall, fun g k hk _ _ ↦ ⟨k, hk, .refl k⟩⟩ ?_
  rintro h rest mid mid' hmem ⟨hImid, hframe, hfewer, hrest, hroots⟩ hstep
  have hleft : ∀ g k, mid.flows.find? g = some k → S k → g ≠ h → g ∈ rest := fun g k hk hS hne ↦
    (List.mem_cons.1 (hrest g k hk hS)).resolve_left hne
  rcases hbody h hmem mid mid' hframe.stable hstep with ⟨hremove, hS⟩ | ⟨rfl, hS⟩
  · cases hf : mid.flows.find? h with
    -- The flow went with another one before.
    | none =>
      obtain rfl := removeFlow_dead hf hremove
      refine ⟨hImid, hframe, hfewer, fun g k hk hSk ↦ hleft g k hk hSk ?_, hroots⟩
      rintro rfl
      exact absurd (hf.symm.trans hk) (by simp)
    | some f =>
      obtain ⟨d, hd⟩ := hImid.depth hf
      obtain ⟨hI', hframe', hfewer', hgone, hothers⟩ := inv_removeFlow hremove hImid hf hd
      refine ⟨hI'.mono ?_, hframe.trans (hframe'.mono (Nat.zero_le d)), hfewer.trans hfewer',
        fun g k hk hSk ↦ ?_, fun g k hk hroot hSk ↦ ?_⟩
      · rintro e (he | ⟨p, fwd, hp, hpipe, rfl⟩)
        · exact he
        · obtain ⟨_, fwd', w, -, hpipe', hw, -, hreceiver, -⟩ := hImid.forest.wire hf hp
          obtain rfl := Option.some.inj (hpipe.symm.trans hpipe')
          exact hD f p fwd w (hS f hf) hp hpipe (hframe.layout ▸ hw) hreceiver
      · obtain ⟨k', hk', halike⟩ := hfewer' g k hk
        refine hleft g k' hk' (hway k' k halike.way hSk) ?_
        rintro rfl
        exact absurd (hgone.symm.trans hk) (by simp)
      · obtain ⟨k', hk', halike⟩ := hroots g k hk hroot hSk
        have hne : g ≠ h := by
          rintro rfl
          exact hSk (hway k k' halike.way (hS k' hk'))
        obtain ⟨k'', hk'', halike'⟩ :=
          hothers g k' hk' ((Flow.parent_eq halike.way).trans hroot) hne
        exact ⟨k'', hk'', halike.trans halike'⟩
  · refine ⟨hImid, hframe, hfewer, fun g k hk hSk ↦ hleft g k hk hSk ?_, hroots⟩
    rintro rfl
    exact hS k hk hSk

end HeaderFlow.Engine
