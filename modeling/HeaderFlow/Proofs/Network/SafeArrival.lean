import HeaderFlow.Proofs.Network.Safe

/-!
# Dropping and arriving are safe

One lemma for each function says that it is safe, started where the invariant says that the flows it
is called for are there. What the invariant is after a step is known from what the step has led to;
here it only has to be shown that nothing is looked up that is gone, and that lengths agree.

A list of flows that was read off earlier may have handles that are past by now, but **no handle
that was never given out**, nor one of a hidden flow: that is what `Arena.Knows` is for.

## Three things to be shown

* *Questions do not see hidden flows.* Going up from a flow meets flows that are looked at
  (`ancestry_eq`), so whether a flow is looped and what a probe is asked are the same with and
  without what is hidden.
* *Handles are known.* Whatever hangs on a known flow is known (`Tidy`), and dropping flows makes no
  handle unknown (`Shed`).
* *The network may be left.* When a visit for a new flow is entered, the flow is on no list yet. If
  the change is broken off there, the flow is hidden from then on, and what is looked at is the
  network without it (`braced_of_orphan`). This is the only place where the number of hidden flows
  goes up.
-/

namespace HeaderFlow.Engine

open Checked (Gives gives_ok)

variable {β : Type} {net net' : Network} {n : Nat} {G O : Set Handle} {D : Set Debt}
  {F F' F'' : Arena Flow} {h c fwd : Handle} {f g : Flow} {key : NodeKey} {m : Node} {w : Wire}
  {side : Pipe} {r : Rule} {processed : Space} {loss : Pattern} {o : Option Pattern}
  {arrive : NodeKey → Handle → Engine Unit} {refresh : Handle → Option Pattern → Engine Unit}

/-! ### The way of a flow

Whatever is computed by going up from a flow is the same for the core and the network. -/

/-- **Hidden flows are on no way.** -/
theorem ancestry_eq {L : Layout} {fuel : Nat} {start : Option Handle} (hH : Arena.Hides G F F')
    (hF : Forest L F' O) (hstart : ∀ h, start = some h → ∃ f, F'.find? h = some f) :
    Network.ancestry F fuel start = Network.ancestry F' fuel start := by
  induction fuel generalizing start with
  | zero => rfl
  | succ fuel ih =>
    cases start with
    | none => rfl
    | some h =>
      obtain ⟨f, hf⟩ := hstart h rfl
      simp only [Network.ancestry, hf, hH.find_some hf]
      rw [ih fun p hp ↦ hF.parent_live hf hp]

/-- The way up from a flow does not depend on what is hidden. -/
theorem lineage_eq {start : Option Handle} (hH : net.Hides n G F) (hI : Inv net O D)
    (hstart : ∀ h, start = some h → ∃ f, net.flows.find? h = some f) :
    (net.withFlows F).lineage start = net.lineage start := by
  rw [Network.lineage, Network.lineage, hH.flows.size]
  exact ancestry_eq hH.flows hI.forest hstart

/-- What is asked about the nodes on the way does not depend on flows. -/
theorem revisited_withFlows (place : UInt64) (fs : List Flow) :
    (net.withFlows F).revisited place fs = net.revisited place fs := by
  induction fs with
  | nil => rfl
  | cons f fs ih =>
    simp only [Network.revisited, ih]
    rfl

theorem enteredBy_withFlows (port : Port) (fs : List Flow) :
    (net.withFlows F).enteredBy port fs = net.enteredBy port fs := by
  induction fs with
  | nil => rfl
  | cons f fs ih =>
    simp only [Network.enteredBy, ih]
    rfl

theorem hops_withFlows (fs : List Flow) : (net.withFlows F).hops fs = net.hops fs := by
  induction fs with
  | nil => rfl
  | cons f fs ih =>
    simp only [Network.hops, ih]
    rfl

/-- The flows on a way are at nodes that are there. -/
theorem placed_lineage (hI : Inv net O D) (start : Option Handle) :
    net.Placed (net.lineage start) := by
  intro f hf
  obtain ⟨h, hh⟩ := Network.exists_of_mem_ancestry hf
  exact hI.node hh

/-- **Whether a flow is looped does not depend on what is hidden.** -/
theorem loopOf_eq (hH : net.Hides n G F) (hI : Inv net O D) (hf : net.flows.find? h = some f) :
    (net.withFlows F).loopOf h = net.loopOf h := by
  have hget : F.get h = .ok f := get_eq_ok.2 (hH.flows.find_some hf)
  have hget' : net.flows.get h = .ok f := get_eq_ok.2 hf
  have hline := lineage_eq hH hI fun p hp ↦ hI.forest.parent_live hf hp
  rw [Network.loopOf, Network.loopOf, hget, hget']
  simp only [revisited_withFlows, bind, Except.bind, hline]
  rfl

/-- The question whether a flow is looped has an answer. -/
theorem gives_loopOf (hI : Inv net O D) (hf : net.flows.find? h = some f) :
    Gives (net.loopOf h) fun _ ↦ True := by
  obtain ⟨m, hm⟩ := hI.node hf
  have hget : net.flows.get h = .ok f := get_eq_ok.2 hf
  have hnode : net.node f.node = .ok m := by rw [Network.node, hm]
  refine Gives.bind (P := (· = f)) ⟨f, hget, rfl⟩ ?_
  rintro f rfl
  exact Gives.bind (P := fun _ ↦ True) ⟨m, hnode, trivial⟩ fun _ _ ↦ (placed_lineage hI _).revisited

/-- **What a probe is asked does not depend on what is hidden.** -/
theorem chainOf_eq (hH : net.Hides n G F) (hI : Inv net O D) (hf : net.flows.find? h = some f) :
    (net.withFlows F).chainOf h = net.chainOf h := by
  have hline : (net.withFlows F).lineage (some h) = net.lineage (some h) :=
    lineage_eq hH hI (by rintro _ ⟨⟩; exact ⟨f, hf⟩)
  simp only [Network.chainOf, hline, hops_withFlows, hf, hH.flows.find_some hf]

/-- What a probe is asked can be put together, and has the length of the headers. -/
theorem gives_chainOf (hI : Inv net O D) (hfit : net.Fit) (hf : net.flows.find? h = some f) :
    Gives (net.chainOf h) (·.Over net.bytes) := by
  refine (placed_lineage hI (some h)).hops.bind fun _ _ ↦ gives_ok fun s hs ↦ ?_
  rw [hf, Option.bind_some] at hs
  exact (hfit.flows h f hf).processed s hs

/-! ### Telling a probe

A probe is told of flows that are listed at its node, and of their way. -/

/-- **Telling a probe is safe** if what it is told can be found out, and does not depend on what is
hidden. -/
theorem safe_notify {change : Network → Checked FlowChange} (hm : net.nodeAt? key = some m)
    (hsame : ∀ G F, net.Hides n G F → change (net.withFlows F) = change net)
    (hchange : net.Fit → Gives (change net) (FlowChange.Over net.bytes)) :
    Safe n (notify key h change) net := by
  refine safe_of_fit ?_
  rintro rfl hfit
  refine safe_node_bind hm ?_
  split
  · rename_i p hp
    split
    · exact safe_pure
    · refine safe_ask_bind hsame (hchange hfit) fun c _ hc ↦ ?_
      have hprobe := (hfit.nodes m (nodeAt?_eq_some hm).1).probe hp
      refine safe_check_bind (hprobe.update hc) fun ⟨q, t⟩ _ hq ↦ ?_
      refine safe_bind (safe_updateNode fun m' _ _ hm' ↦ ⟨hm'.accepts, hm'.sends, hq⟩)
        fun _ _ _ ↦ ?_
      cases t with
      | none => exact safe_pure
      | some t => exact safe_event_bind safe_report
  · exact safe_pure

theorem safe_notify_arrived (hI : Inv net O D) (hf : net.flows.find? h = some f)
    (hm : net.nodeAt? key = some m) : Safe n (notify key h (arrived h)) net :=
  safe_notify hm (fun _ _ hH ↦ congrArg (Except.map _) (chainOf_eq hH hI hf)) fun hfit ↦
    (gives_chainOf hI hfit hf).map fun _ hc ↦ hc

theorem safe_notify_changed (hI : Inv net O D) (hf : net.flows.find? h = some f)
    (hm : net.nodeAt? key = some m) : Safe n (notify key h (changed h)) net :=
  safe_notify hm (fun _ _ hH ↦ congrArg (Except.map _) (chainOf_eq hH hI hf)) fun hfit ↦
    (gives_chainOf hI hfit hf).map fun _ hc ↦ hc

/-! ### Dropping flows

A tree is dropped from the leaves. The list of children is read off before, and the children are
known for as long as it takes. -/

/-- What hangs on a flow is known. -/
def Tidy (F : Arena Flow) : Prop := ∀ h f, F.find? h = some f → ∀ c ∈ f.children, F.Knows c

/-- No handle is forgotten, and nothing hangs on a flow that did not before. -/
structure Shed (F F' : Arena Flow) : Prop where
  knows : ∀ h, F.Knows h → F'.Knows h
  children : ∀ h f', F'.find? h = some f' → ∃ f, F.find? h = some f ∧ f'.children ⊆ f.children

/-- In a network without orphans everything is tidy. -/
theorem tidy_of_inv (hI : Inv net O D) : Tidy net.flows := fun h f hf c hc ↦ by
  obtain ⟨g, hg, -⟩ := hI.forest.children h f c hf hc
  exact .inr ⟨g, hg⟩

/-- Dropping flows leaves everything tidy. -/
theorem Tidy.shed (ht : Tidy F) (hs : Shed F F') : Tidy F' := fun h f' hf' c hc ↦ by
  obtain ⟨f, hf, hsub⟩ := hs.children h f' hf'
  exact hs.knows c (ht h f hf c (hsub hc))

/-- A handle that is known stays known. -/
theorem knows_of_stable (hs : Stable F F') (hh : F.Knows h) : F'.Knows h := by
  rcases hh with hp | ⟨f, hf⟩
  · exact .inl (hs.past h hp)
  · exact (hs.live h f hf).imp_right fun ⟨f', hf', _⟩ ↦ ⟨f', hf'⟩

namespace Shed

theorem refl (F : Arena Flow) : Shed F F :=
  ⟨fun _ hh ↦ hh, fun _ f hf ↦ ⟨f, hf, List.Subset.refl _⟩⟩

theorem trans (h₁ : Shed F F') (h₂ : Shed F' F'') : Shed F F'' := by
  refine ⟨fun h hh ↦ h₂.knows h (h₁.knows h hh), fun h f'' hf'' ↦ ?_⟩
  obtain ⟨f', hf', hsub'⟩ := h₂.children h f'' hf''
  obtain ⟨f, hf, hsub⟩ := h₁.children h f' hf'
  exact ⟨f, hf, List.Subset.trans hsub' hsub⟩

/-- A flow that loses children. -/
theorem modify {k : Flow → Flow} (hway : ∀ f, (k f).way = f.way)
    (hk : ∀ f, (k f).children ⊆ f.children) : Shed F (F.modify h k) := by
  refine ⟨fun _ hh ↦ knows_of_stable (.modify hway) hh, fun g f' hf' ↦ ?_⟩
  rw [Arena.find?_modify] at hf'
  split at hf'
  · rename_i hg
    obtain ⟨f, hf, rfl⟩ := Option.map_eq_some_iff.1 hf'
    exact ⟨f, hg ▸ hf, hk f⟩
  · exact ⟨f', hf', List.Subset.refl _⟩

theorem erase (F : Arena Flow) (h : Handle) : Shed F (F.erase h) :=
  ⟨fun _ hh ↦ knows_of_stable (.erase F h) hh, fun g f' hf' ↦
    ⟨f', ((Arena.lacks_erase g f').1 hf').2, List.Subset.refl _⟩⟩

end Shed

theorem Leads.shed_detachChildren (hl : Leads (Engine.detachChildren h f) net () net') :
    Shed net.flows net'.flows := by
  rw [Engine.detachChildren, leads_updateFlow_bind, leads_network_bind] at hl
  have hshed : Shed net.flows (net.flows.modify h fun f ↦ { f with children := [] }) :=
    .modify (fun _ ↦ rfl) fun _ ↦ List.nil_subset _
  rcases hl.ite with ⟨-, hl⟩ | ⟨-, hl⟩
  · obtain ⟨rfl, -⟩ | ⟨_, _, _, _, _, _, _, _, _, _, rfl⟩ := hl.notify <;> exact hshed
  · exact (leads_pure.1 hl).2 ▸ hshed

/-- A tree is dropped, with what hangs on its flows. -/
theorem Leads.shed_dropTree {fuel : Nat} (hl : Leads (dropTree fuel h) net () net') :
    Shed net.flows net'.flows := by
  induction fuel generalizing net net' h with
  | zero => exact (leads_pure.1 hl).2 ▸ .refl _
  | succ fuel ih =>
    rw [dropTree, leads_flow?_bind] at hl
    cases hf : net.flows.find? h with
    | none =>
      rw [hf] at hl
      exact (leads_pure.1 hl).2 ▸ .refl _
    | some f =>
      rw [hf] at hl
      obtain ⟨⟨⟩, mid, hdetach, hl⟩ := hl.bind
      obtain ⟨⟨⟩, mid', hdrop, hl⟩ := hl.bind
      have hmid : Shed net.flows mid'.flows :=
        hdrop.forM (I := fun _ mid ↦ Shed net.flows mid.flows) hdetach.shed_detachChildren
          fun _ _ _ _ _ hI hstep ↦ hI.trans (ih hstep)
      rw [hl.discardFlow.1]
      exact hmid.trans (.erase _ _)

theorem Leads.shed_dropSubtree (hl : Leads (dropSubtree h) net () net') :
    Shed net.flows net'.flows := by
  rw [dropSubtree, leads_network_bind] at hl
  exact hl.shed_dropTree

theorem safe_detachChildren (hh : net.flows.Knows h) : Safe n (detachChildren h f) net := by
  refine safe_bind (safe_updateFlow hh fun _ _ hf ↦ ⟨hf.input, hf.processed⟩) fun _ mid _ ↦ ?_
  refine safe_network_bind (fun _ _ _ ↦ rfl) ?_
  dsimp only
  split
  · rename_i hany
    obtain ⟨m, hm, -⟩ := (Option.any_eq_true _ _).1 hany
    exact safe_notify hm (fun _ _ _ ↦ rfl) fun _ ↦ gives_ok trivial
  · exact safe_pure

theorem safe_discardFlow (hh : net.flows.Knows h) : Safe n (discardFlow h key) net :=
  safe_bind (safe_eraseFlow hh) fun _ _ _ ↦ safe_updateNode_of_eq fun _ ↦ ⟨rfl, rfl, rfl⟩

/-- **Dropping a tree is safe**, since what hangs on a flow is known. -/
theorem safe_dropTree {fuel : Nat} (hh : net.flows.Knows h) (ht : Tidy net.flows) :
    Safe n (dropTree fuel h) net := by
  induction fuel generalizing net h with
  | zero => exact safe_pure
  | succ fuel ih =>
    refine safe_flow?_bind hh ?_
    cases hf : net.flows.find? h with
    | none => exact safe_pure
    | some f =>
      refine safe_bind (safe_detachChildren hh) fun _ mid hdetach ↦ ?_
      refine safe_bind (safe_forM (I := fun _ mid ↦ Shed net.flows mid.flows)
        hdetach.shed_detachChildren fun c _ mid hc hI ↦
          ⟨ih (hI.knows c (ht h f hf c hc)) (ht.shed hI),
            fun _ hstep ↦ hI.trans hstep.shed_dropTree⟩) fun _ mid' hdrop ↦ ?_
      have hmid : Shed net.flows mid'.flows :=
        hdrop.forM (I := fun _ mid ↦ Shed net.flows mid.flows) hdetach.shed_detachChildren
          fun _ _ _ _ _ hI hstep ↦ hI.trans hstep.shed_dropTree
      exact safe_discardFlow (hmid.knows h hh)

/-- Dropping a tree with fuel for all slots is safe. -/
theorem safe_dropSubtree (hh : net.flows.Knows h) (ht : Tidy net.flows) :
    Safe n (dropSubtree h) net := by
  refine safe_network_bind (k := fun m ↦ dropTree m.flows.slots.size h) (fun G F hH ↦ ?_)
    (safe_dropTree hh ht)
  rw [hH.flows.size]

theorem safe_dropBelow (hh : net.flows.Knows h) (ht : Tidy net.flows) :
    Safe n (dropBelow h) net := by
  refine safe_flow?_bind hh ?_
  cases hf : net.flows.find? h with
  | none => exact safe_pure
  | some f =>
    refine safe_bind (safe_detachChildren hh) fun _ mid hdetach ↦ ?_
    exact safe_forM (I := fun _ mid ↦ Shed net.flows mid.flows) hdetach.shed_detachChildren
      fun c _ mid hc hI ↦ ⟨safe_dropSubtree (hI.knows c (ht h f hf c hc)) (ht.shed hI),
        fun _ hstep ↦ hI.trans hstep.shed_dropSubtree⟩

/-- **Removing a flow is safe**, and so is removing it again. -/
theorem safe_removeFlow (hI : Inv net ∅ D) (hh : net.flows.Knows h) :
    Safe n (removeFlow h) net := by
  refine safe_flow?_bind hh ?_
  cases hf : net.flows.find? h with
  | none => exact safe_pure
  | some f =>
    have ht := tidy_of_inv hI
    cases hp : f.parent with
    | none =>
      refine safe_bind ?_ fun _ mid hunlink ↦ ?_
      · rw [unlink, hp]
        exact safe_pure
      · rw [unlink, hp] at hunlink
        obtain ⟨-, rfl⟩ := leads_pure.1 hunlink
        exact safe_dropSubtree hh ht
    | some p =>
      obtain ⟨g, hg⟩ := hI.forest.parent_live hf hp
      refine safe_bind ?_ fun _ mid hunlink ↦ ?_
      · rw [unlink, hp]
        exact safe_updateFlow (.inr ⟨g, hg⟩) fun _ _ hf ↦ ⟨hf.input, hf.processed⟩
      · rw [unlink, hp] at hunlink
        obtain rfl := leads_updateFlow.1 hunlink
        have hshed : Shed net.flows
            (net.flows.modify p fun f ↦ { f with children := f.children.filter (· ≠ h) }) :=
          .modify (fun _ ↦ rfl) fun _ ↦ List.filter_sublist.subset
        exact safe_dropSubtree (hshed.knows h hh) (ht.shed hshed)

/-! ### Arriving -/

/-- Listing a flow is safe: its node is there, and so is the flow it came from. -/
theorem safe_register (hI : Inv net {c} D) (hg : net.flows.find? c = some g) :
    Safe n (register key c) net := by
  refine safe_bind (safe_updateNode_of_eq fun _ ↦ ⟨rfl, rfl, rfl⟩) fun _ mid hl ↦ ?_
  obtain rfl := leads_updateNode.1 hl
  refine safe_flow_bind hg ?_
  cases hp : g.parent with
  | none => exact safe_pure
  | some p =>
    obtain ⟨f, hf⟩ := hI.forest.parent_live hg hp
    exact safe_updateFlow (.inr ⟨f, hf⟩) fun _ _ hf ↦ ⟨hf.input, hf.processed⟩

/-- Subtracting influences is safe if they are there and have the length of the headers. -/
theorem safe_subtractInfluences_bind {port : Port} {ks : List Handle} {s : Space}
    {k : Space → Engine β} (hks : ∀ j ∈ ks, ∃ i, net.influences.find? j = some i) (hs : s.Over n)
    (hk : ∀ left, left.Over n → Safe n (k left) net) :
    Safe n (subtractInfluences port ks s >>= k) net := by
  induction ks generalizing s with
  | nil => exact hk s hs
  | cons j ks ih =>
    obtain ⟨i, hi⟩ := hks j List.mem_cons_self
    have hrest := fun t ↦ ih (s := t) fun j hj ↦ hks j (List.mem_cons_of_mem _ hj)
    refine safe_of_fit ?_
    rintro rfl hfit
    rw [subtractInfluences, bind_assoc]
    refine safe_ask_bind (P := (· = i)) (fun _ _ _ ↦ rfl) ⟨i, get_eq_ok.2 hi, rfl⟩ ?_
    rintro i - rfl
    split
    · rw [bind_assoc]
      exact safe_check_bind (hs.cut (hfit.influences j i hi)) fun t _ ht ↦ hrest t ht
    · exact hrest s hs

/-- The influences in which a rule loses are there. -/
theorem exists_influence {X : Set Handle} (ho : net.layout.Ordered X)
    (hm : net.nodeAt? key = some m) (hr : m.rule? = some r) :
    ∀ k ∈ r.influencedBy, ∃ i, net.influences.find? k = some i := by
  intro k hk
  obtain ⟨i, hi, -⟩ := ho.lost key k ((lost_won_of_rule hm hr).1 ▸ hk)
  exact ⟨i, hi⟩

/-- **Computing what leaves a rule is safe**, since the influences in which it loses are there. -/
theorem safe_recompute {X : Set Handle} (ho : net.layout.Ordered X) (hm : net.nodeAt? key = some m)
    (hf : net.flows.find? h = some f) : Safe n (recompute key h) net := by
  refine safe_of_fit ?_
  rintro rfl hfit
  refine safe_node_bind hm ?_
  split
  · rename_i r hr
    have hrole : m.role = .rule r := by
      rw [Node.rule?] at hr
      split at hr <;> simp_all
    refine safe_flow_bind hf ?_
    refine safe_subtractInfluences_bind (exists_influence ho hm hr) (hfit.flows h f hf).input
      fun left hleft ↦ ?_
    refine safe_check_bind (hleft.compact _) fun left _ hleft ↦ ?_
    split
    · exact safe_bind (safe_updateFlow (.inr ⟨f, hf⟩) fun _ _ hf ↦ ⟨hf.input, by simp⟩)
        fun _ _ _ ↦ safe_pure
    · refine safe_check_bind ((hfit.nodes m (nodeAt?_eq_some hm).1).rewrite hrole hleft)
        fun sent _ hsent ↦ ?_
      exact safe_bind (safe_updateFlow (.inr ⟨f, hf⟩) fun _ _ hf ↦
        ⟨hf.input, fun s hs ↦ Option.some.inj hs ▸ hsent⟩) fun _ _ _ ↦ safe_pure
  · exact safe_pure

theorem safe_blocked {port : Port} (hI : Inv net O D) (hm : net.nodeAt? key = some m)
    (hf : net.flows.find? h = some f) : Safe n (blocked key h port) net := by
  refine safe_node_bind hm ?_
  split
  · exact safe_pure
  · rw [← bind_pure (ask _)]
    refine safe_ask_bind (fun G F hH ↦ ?_) (placed_lineage hI (some h)).enteredBy
      fun _ _ _ ↦ safe_pure
    rw [enteredBy_withFlows, lineage_eq hH hI (by rintro _ ⟨⟩; exact ⟨f, hf⟩)]

theorem safe_reportLost {back : Pipe} {out : Space} {measure : Measure} {k : Node}
    (hm : net.nodeAt? key = some m) (hk : net.nodeAt? back.node = some k)
    (hside : side.pattern.bytes = n) (hprocessed : processed.Over n) (hout : out.Over n) :
    Safe n (reportLost key h side back processed out measure) net := by
  refine safe_network_bind (fun _ _ _ ↦ rfl) ?_
  split
  · exact safe_pure
  · refine safe_check_bind (P := fun _ ↦ True) ?_ fun lost _ _ ↦ ?_
    · cases measure with
      | flow => exact hout.isStrictSubset hprocessed
      | pipe => exact hout.isStrictSubset (Space.over_ofPattern hside)
    · split
      · exact safe_node_bind hm (safe_node_bind hk (safe_event_bind safe_report))
      · exact safe_pure

/-- What is asked of a way of taking a flow that has just arrived. -/
def SafelyArrives (n : Nat) (arrive : NodeKey → Handle → Engine Unit) : Prop :=
  ∀ net c g, Inv net {c} Set.univ → net.layout.Ordered ∅ → net.flows.find? c = some g → g.Fresh →
    Unlisted net c → Safe n (arrive g.node c) net

/-- **Sending headers down a pipe is safe** if arriving at the other end is. -/
theorem safe_sendHeaders {measure : Measure} {back : Pipe} (harrive : SafelyArrives n arrive)
    (hfirm : net.Firm) (hf : net.flows.find? h = some f) (hside : net.pipes.find? fwd = some side)
    (hback : net.pipes.find? side.reverse = some back) (hnext : fwd ∈ net.layout.next f.node)
    (hsender : side.node = f.node) (hsends : f.processed = some processed)
    (hleaves : f.Leaves side.port) :
    Safe n (sendHeaders arrive f.node h fwd side measure f processed) net := by
  refine safe_of_fit ?_
  rintro rfl hfit
  have hprocessed := (hfit.flows h f hf).processed processed hsends
  refine safe_check_bind (gives_pipeOut hprocessed (hfit.pipes fwd side hside))
    fun out hout hover ↦ ?_
  split
  · exact safe_pure
  · refine safe_pipe_bind hback ?_
    obtain ⟨m, hm⟩ := hfirm.inv.node hf
    obtain ⟨k, hk⟩ : ∃ k, net.nodeAt? back.node = some k := by
      obtain ⟨-, k, -, -, hk, -⟩ := hfirm.inv.layout.ends
        ⟨side, back, hside, hback, hsender ▸ hnext, rfl⟩
      obtain ⟨k', hk', -⟩ := exists_nodeAt? hk
      exact ⟨k', hk'⟩
    refine safe_bind (safe_reportLost hm hk (hfit.pipes fwd side hside) hprocessed hover)
      fun _ mid hl ↦ ?_
    obtain rfl := hl.reportLost
    have hI : Inv mid ∅ (Set.univ ∪ {.pending h fwd}) := hfirm.inv.mono fun _ _ ↦ .inl trivial
    refine safe_bind (safe_insertFlow ⟨hover, by simp⟩) fun child mid' hinsert ↦ ?_
    obtain ⟨rfl, rfl⟩ := leads_insertFlow.1 hinsert
    exact harrive _ _ (issue f h fwd back out)
      ((inv_issue hI hf hside hback hnext hsender hsends hleaves hout).mono fun _ _ ↦ trivial)
      hfirm.ordered (Arena.find?_insert_self hfirm.inv.valid)
        (fresh_issue (pipeOut_spec hout).2.2.1)
      (unlisted_insert hI rfl)

/-- **Sending a flow down a pipe is safe.** -/
theorem safe_send {measure : Measure} (harrive : SafelyArrives n arrive) (hfirm : net.Firm)
    (hf : net.flows.find? h = some f) (hw : net.layout.Runs fwd w) (hsender : w.sender = f.node) :
    Safe n (send arrive f.node h fwd measure) net := by
  obtain ⟨side, back, hside, hback, hnext, hwire⟩ := id hw
  have hside : net.pipes.find? fwd = some side := hside
  refine safe_pipe?_bind ?_
  rw [hside]
  obtain ⟨m, hm⟩ := hfirm.inv.node hf
  refine safe_bind (safe_blocked hfirm.inv hm hf) fun ans mid hl ↦ ?_
  obtain ⟨rfl, -, hgo⟩ := hl.blocked hfirm.inv hf
  split
  · exact safe_pure
  · rename_i hans
    refine safe_flow_bind hf ?_
    cases hp : f.processed with
    | none => exact safe_pure
    | some processed =>
      have hsame : side.node = f.node := by rw [← hsender, hwire]
      refine safe_sendHeaders harrive hfirm hf hside hback (hsame ▸ hnext) hsame hp ?_
      obtain ⟨m, -, -, hm, -, -, hport, -⟩ := hfirm.inv.layout.ends hw
      rw [hwire] at hport
      exact hgo m (hsender ▸ hm) hport (by simpa using hans)

/-- **Sending a flow down a list of pipes is safe**, of which some may be passed over. -/
theorem safe_forM_next {body : Handle → Engine Unit} (harrives : Arrives arrive)
    (harrive : SafelyArrives n arrive)
    (hbody : ∀ fwd, (∃ measure, body fwd = send arrive f.node h fwd measure) ∨ body fwd = pure ())
    (hfirm : net.Firm) (hm : net.nodeAt? f.node = some m) (hf : net.flows.find? h = some f) :
    Safe n (m.next.forM body) net := by
  obtain ⟨d, hd⟩ := hfirm.inv.depth hf
  refine safe_forM (I := fun _ mid ↦ mid.Firm ∧ Frame (d + 1) net mid) ⟨hfirm, .refl _ _⟩ ?_
  rintro fwd - mid hmem ⟨hmid, hframe⟩
  obtain ⟨w, hw, hsender⟩ := runs_of_next hfirm.inv hm hmem
  obtain ⟨f', hf', halike⟩ := hframe.spares h d f hd (Nat.lt_succ_self d) hf
  rw [← hframe.layout] at hw
  have hnode := Flow.node_eq halike.way
  rcases hbody fwd with ⟨measure, heq⟩ | heq
  · rw [heq, ← hnode]
    refine ⟨safe_send harrive hmid hf' hw (hsender.trans hnode.symm), fun mid' hl ↦ ?_⟩
    obtain ⟨hI, hframe'⟩ := inv_send (D := Set.univ) harrives hl
      (hmid.inv.mono fun _ _ ↦ .inl trivial) hf' (hframe.spares.depth hd (Nat.lt_succ_self d)) hw
      (hsender.trans hnode.symm)
    exact ⟨hmid.propagate hI hframe'.layout, hframe.trans hframe'⟩
  · rw [heq]
    refine ⟨safe_pure, fun mid' hl ↦ ?_⟩
    obtain ⟨-, rfl⟩ := leads_pure.1 hl
    exact ⟨hmid, hframe⟩

/-- A flow is sent down every pipe of its node. -/
theorem safe_sendAll (harrives : Arrives arrive) (harrive : SafelyArrives n arrive)
    (hfirm : net.Firm) (hf : net.flows.find? h = some f) :
    Safe n (sendAll arrive f.node h) net := by
  obtain ⟨m, hm⟩ := hfirm.inv.node hf
  exact safe_node_bind hm (safe_forM_next harrives harrive (fun _ ↦ .inl ⟨_, rfl⟩) hfirm hm hf)

theorem safe_markLooped {first : NodeId} (hm : net.nodeAt? key = some m)
    (hf : net.flows.find? h = some f) : Safe n (markLooped key h first) net := by
  refine safe_bind (safe_updateFlow (.inr ⟨f, hf⟩) fun _ _ hf ↦ ⟨hf.input, hf.processed⟩)
    fun _ mid hl ↦ ?_
  obtain rfl := leads_updateFlow.1 hl
  exact safe_node_bind hm (safe_event_bind safe_report)

/-- What a rule has computed may be put in place. -/
theorem firm_computed {sent : Option Space} (hfirm : net.Firm) (hf : net.flows.find? h = some f)
    (hparent : f.parent ≠ none) (hcomputes : Computes net.layout f sent) :
    (withFlow net h fun f ↦ { f with processed := sent }).Firm :=
  hfirm.propagate ((inv_computed (C := Set.univ) hfirm.inv (fun _ _ _ _ ↦ trivial) hf hparent
    hcomputes).mono fun _ _ ↦ trivial) rfl

/-- **Taking in a flow is safe**, where `arrive` is called for what comes from it. -/
theorem safe_takeIn (harrives : Arrives arrive) (harrive : SafelyArrives n arrive) :
    SafelyArrives n (takeIn arrive) := by
  intro net c g hI ho hg hfresh hunlisted
  obtain ⟨m, hm⟩ := hI.node hg
  refine safe_node_bind hm ?_
  cases hrole : m.role with
  | source => exact absurd hrole (role_ne_source hI hg hfresh.parent hm)
  | rule r =>
    refine safe_bind (safe_register hI hg) fun _ mid hregister ↦ ?_
    obtain ⟨hI₁, hframe, hg₁⟩ := inv_register hregister hI hg hunlisted
    have hfirm : mid.Firm := ⟨hI₁, (hframe 0).layout ▸ ho⟩
    obtain ⟨m₁, r₁, hm₁, hrole₁⟩ := rule_of_layout (hframe 0).layout hm hrole
    refine safe_ask_bind (fun _ _ hH ↦ loopOf_eq hH hI₁ hg₁) (gives_loopOf hI₁ hg₁)
      fun back _ _ ↦ ?_
    cases back with
    | some first => exact safe_markLooped hm₁ hg₁
    | none =>
      refine safe_bind (safe_recompute hfirm.ordered hm₁ hg₁) fun alive mid' hrecompute ↦ ?_
      obtain ⟨b, htrim⟩ := (hI₁.sound.shaped c g hg₁).input hfresh.parent
      obtain ⟨sent, rfl, rfl, hcomputes⟩ := hrecompute.recompute hg₁ hm₁ hrole₁ htrim hfresh.looped
      have hr := Replaces.modify (k := fun f : Flow ↦ { f with processed := sent }) hg₁ rfl
      split
      · exact safe_sendAll (f := { g with processed := sent }) harrives harrive
          (firm_computed hfirm hg₁ hfresh.parent hcomputes) hr.after
      · exact safe_pure
  | probe p =>
    refine safe_bind (safe_register hI hg) fun _ mid hregister ↦ ?_
    obtain ⟨hI₁, hframe, hg₁⟩ := inv_register hregister hI hg hunlisted
    obtain ⟨m₁, p₁, hm₁, hrole₁⟩ := probe_of_layout (hframe 0).layout hm hrole
    refine safe_bind (safe_updateFlow (.inr ⟨g, hg₁⟩) fun f _ hf ↦
      ⟨hf.input, fun s hs ↦ Option.some.inj hs ▸ hf.input⟩) fun _ mid' hl ↦ ?_
    obtain rfl := leads_updateFlow.1 hl
    have hI₂ := inv_setProcessed_probe (hI₁.mono fun _ _ ↦ .inl trivial) hg₁ hfresh.parent
      hfresh.looped hfresh.normalized hm₁ hrole₁
    exact safe_notify_arrived hI₂ (Arena.find?_modify_self hg₁) hm₁

/-! ### A flow on its way

Where a visit is broken off before a flow was taken in, the flow is on no list, and no other flow
came from it. The network is firm without it. -/

/-- The network without a flow that is on its way is firm. -/
theorem firm_vacate (hI : Inv net {c} Set.univ) (ho : net.layout.Ordered ∅)
    (hg : net.flows.find? c = some g) (hfresh : g.Fresh) (hunlisted : Unlisted net c)
    (hvalid : (net.flows.vacate c).Valid) : (net.withFlows (net.flows.vacate c)).Firm := by
  have hlacks := Arena.lacks_vacate hg
  have hleaf : ∀ k l, net.flows.find? k = some l → l.parent ≠ some c := by
    intro k l hl hp
    have hne : k ≠ c := by
      rintro rfl
      exact hI.parent_ne_self hl hp
    have hmem := hI.forest.listed k l c g hl hne hp hg
    exact absurd hmem (hfresh.children ▸ List.not_mem_nil)
  refine ⟨⟨hI.layout, hvalid, ⟨fun h f hf _ ↦ ?_, fun key h hh ↦ ?_, hI.listed.nodup⟩, ?_, ?_⟩, ho⟩
  · obtain ⟨hne, hf⟩ := (hlacks h f).1 hf
    exact hI.listed.all h f hf hne
  · obtain ⟨f, hf, hnode⟩ := hI.listed.only key h hh
    refine ⟨f, (hlacks h f).2 ⟨?_, hf⟩, hnode⟩
    rintro rfl
    exact hunlisted.roster key hh
  · exact (hI.forest.mono (by simp)).lack hlacks hleaf hunlisted.children
  · exact hI.sound.lack hlacks hg hleaf (fun _ _ _ ↦ trivial) fun _ _ _ _ ↦ trivial

/-- **A flow on its way may be left behind.** -/
theorem braced_of_orphan (hI : Inv net {c} Set.univ) (ho : net.layout.Ordered ∅)
    (hg : net.flows.find? c = some g) (hfresh : g.Fresh) (hunlisted : Unlisted net c) :
    Braced n net := by
  intro G F b hH
  have hhides := hH.flows.vacate hg
  have hfirm := firm_vacate hI ho hg hfresh hunlisted hhides.valid_right
  exact ⟨G ∪ {c}, { net with flows := net.flows.vacate c, budget := b }, hfirm.quiet (.budget _ b),
    ⟨rfl, hhides, ⟨hH.fit.nodes, hH.fit.pipes, hH.fit.influences, hH.fit.flows⟩⟩, rfl⟩

/-- **However deep visits may be nested, arriving is safe.** -/
theorem arriveWithin_safe (room : Nat) : SafelyArrives n (arriveWithin room) := by
  induction room with
  | zero =>
    intro net c g hI ho hg hfresh hunlisted
    have hb := braced_of_orphan (n := n) hI ho hg hfresh hunlisted
    refine safe_bind (safe_enter hb) fun _ mid hl ↦ ?_
    obtain ⟨b, rfl⟩ := hl.enter
    exact safe_tooDeep (braced_of_orphan ((Quiet.budget net b).inv hI) ho hg hfresh
      ⟨hunlisted.roster, hunlisted.children⟩)
  | succ room ih =>
    intro net c g hI ho hg hfresh hunlisted
    refine safe_visit (braced_of_orphan hI ho hg hfresh hunlisted) fun b ↦ ?_
    exact safe_takeIn (arriveWithin_arrives room) ih _ c g
      ((Quiet.budget net b).inv hI) ho hg hfresh ⟨hunlisted.roster, hunlisted.children⟩

theorem arrive_safe : SafelyArrives n Engine.arrive := fun net c g hI ho hg hfresh hunlisted ↦
  safe_room_bind (arriveWithin_safe _ net c g hI ho hg hfresh hunlisted)

end HeaderFlow.Engine
