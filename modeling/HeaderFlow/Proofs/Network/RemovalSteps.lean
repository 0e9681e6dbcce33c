import HeaderFlow.Proofs.Network.Wiring
import HeaderFlow.Proofs.Network.Drop

/-!
# What removing leaves

Removing flows and pipes **adds nothing anywhere**: flows keep all but some of those that came from
them, nodes keep what they are and some of what they list, and probes forget flows that are gone.
`Network.Wanes` is this relation. It holds along every step of a removal, whatever the network is
like, and so it says little: a network without flows and pipes is left by any removal.

The other half is that **nothing goes that need not**. Dropping works down the flows that came from
one, so a flow goes only if it came from one that is dropped. With the flows that are removed for
themselves described by `S`, `Network.Loses` says that all others stay that did not come from them.

## From a tree to a link

* `Felled h`: only flows have gone that came from the one named by `h`. Dropping a tree does no more
  (`fells_dropTree`), and removing a flow does no more either.
* `Network.Loses S T`: flows described by `S` have gone with what came from them, and pipes
  described by `T`. A loop that removes described flows one after the other loses no more
  (`Loses.forM`).
* Cutting a link and isolating a node are such loops: the flows described came along the link, or
  are at the node.

A flow is forgotten by its probe before it goes, so for a moment it is forgotten and still there.
The set `X` in `Wanes X` is for that moment, and `Wanes.settle` does away with it.
-/

namespace HeaderFlow

open Engine

variable {net net' net'' : Network} {F F' : Arena Flow} {X Y : Set Handle} {P Q : Handle → Prop}
  {h g c : Handle} {f k : Flow} {n m o : Node} {p q : Probe} {key : NodeKey} {fuel : Nat}
  {S : Flow → Prop} {l : Link}

/-! ### Flows that came from a flow

Going up from a flow leads to those that it came from. A flow may go only if this way leads past the
one that is dropped. -/

/-- The flow named by the second handle came from the one named by the first, or is that flow. -/
inductive Arena.Descends (F : Arena Flow) (h : Handle) : Handle → Prop
  | refl {f : Flow} : F.find? h = some f → F.Descends h h
  | step {g p : Handle} {f : Flow} :
    F.find? g = some f → f.parent = some p → F.Descends h p → F.Descends h g

/-- A flow that came from another is there. -/
theorem Arena.Descends.live (hd : F.Descends h g) : ∃ f, F.find? h = some f := by
  induction hd with
  | refl hf => exact ⟨_, hf⟩
  | step _ _ _ ih => exact ih

/-- Above a flow that came from another there are the flows above that one. -/
theorem Arena.Descends.trans (hd : F.Descends h g) (he : F.Descends g c) : F.Descends h c := by
  induction he with
  | refl => exact hd
  | step hf hp _ ih => exact .step hf hp ih

/-- Some flows are gone, and those that are left have lost at most some of what came from them. -/
def Dwindles (F F' : Arena Flow) : Prop :=
  ∀ h k, F'.find? h = some k → ∃ f cs, F.find? h = some f ∧ cs.Sublist f.children ∧ k =
    { f with children := cs }

namespace Dwindles

theorem refl (F : Arena Flow) : Dwindles F F := fun _ k hk ↦ ⟨k, k.children, hk, .refl _, rfl⟩

/-- Losing once and again is losing. -/
theorem trans {F'' : Arena Flow} (h₁ : Dwindles F F') (h₂ : Dwindles F' F'') : Dwindles F F'' := by
  intro h k hk
  obtain ⟨f', cs', hf', hsub', rfl⟩ := h₂ h k hk
  obtain ⟨f, cs, hf, hsub, rfl⟩ := h₁ h f' hf'
  exact ⟨f, cs', hf, hsub'.trans hsub, rfl⟩

/-- A flow that is left has the way that it had. -/
theorem way (hF : Dwindles F F') (hk : F'.find? h = some k) :
    ∃ f, F.find? h = some f ∧ k.way = f.way := by
  obtain ⟨f, cs, hf, -, rfl⟩ := hF h k hk
  exact ⟨f, hf, rfl⟩

/-- What is gone stays gone. -/
theorem gone (hF : Dwindles F F') (hh : F.find? h = none) : F'.find? h = none := by
  cases hk : F'.find? h with
  | none => rfl
  | some k =>
    obtain ⟨f, hf, -⟩ := hF.way hk
    exact absurd (hh.symm.trans hf) (by simp)

/-- A flow that is left came from what it came from. -/
theorem descends (hF : Dwindles F F') (hd : F'.Descends h g) : F.Descends h g := by
  induction hd with
  | refl hk =>
    obtain ⟨f, hf, -⟩ := hF.way hk
    exact .refl hf
  | step hk hp _ ih =>
    obtain ⟨f, hf, hway⟩ := hF.way hk
    exact .step hf ((Flow.parent_eq hway).symm.trans hp) ih

/-- A flow loses children. -/
theorem modify {e : Flow → Flow}
    (he : ∀ f, ∃ cs, cs.Sublist f.children ∧ e f = { f with children := cs }) :
    Dwindles F (F.modify h e) := by
  intro g k hk
  rw [Arena.find?_modify] at hk
  split at hk
  · rename_i hgh
    obtain ⟨f, hf, rfl⟩ := Option.map_eq_some_iff.1 hk
    obtain ⟨cs, hsub, heq⟩ := he f
    exact ⟨f, cs, hgh ▸ hf, hsub, heq⟩
  · exact refl F g k hk

/-- A flow goes. -/
theorem erase (F : Arena Flow) (h : Handle) : Dwindles F (F.erase h) := by
  intro g k hk
  rw [Arena.find?_erase] at hk
  split at hk
  · cases hk
  · exact refl F g k hk

end Dwindles

/-- What came from a flow has it for its parent. -/
def Arena.Kindred (F : Arena Flow) : Prop :=
  ∀ h f c k, F.find? h = some f → c ∈ f.children → F.find? c = some k → k.parent = some h

/-- What came from a flow has it for its parent still. -/
theorem Arena.Kindred.dwindles (hF : F.Kindred) (hd : Dwindles F F') : F'.Kindred := by
  intro h f' c k' hf' hc hk'
  obtain ⟨f, cs, hf, hsub, rfl⟩ := hd h f' hf'
  obtain ⟨k, hk, hway⟩ := hd.way hk'
  exact (Flow.parent_eq hway).trans (hF h f c k hf (hsub.subset hc) hk)

/-- Without orphans there is nothing to be shown. -/
theorem Inv.kindred {O : Set Handle} {D : Set Debt} (hI : Inv net O D) : net.flows.Kindred := by
  intro h f c k hf hc hk
  obtain ⟨k', hk', hp⟩ := hI.forest.children h f c hf hc
  exact Option.some.inj (hk.symm.trans hk') ▸ hp

/-! ### Nodes that list less

What has become of a node is said by two lists for each of its lists: the new one is a sublist, and
what is missing is gone or was to go. -/

/-- The probe has forgotten flows, all of them with the property. -/
structure Probe.Forgets (P : Handle → Prop) (p q : Probe) : Prop where
  same : q = { p with results := q.results, deciding := q.deciding }
  results : q.results.Sublist p.results
  forgotten : ∀ e ∈ p.results, e ∉ q.results → P e.1

namespace Probe.Forgets

theorem refl (P : Handle → Prop) (p : Probe) : p.Forgets P p :=
  ⟨rfl, .refl _, fun _ he hne ↦ absurd he hne⟩

/-- A probe that forgets twice has forgotten. -/
theorem trans {r : Probe} (h₁ : p.Forgets P q) (h₂ : q.Forgets Q r) (hP : ∀ h, P h → Q h) :
    p.Forgets Q r := by
  refine ⟨?_, h₂.results.trans h₁.results, fun e he hne ↦ ?_⟩
  · rw [h₂.same, h₁.same]
  · by_cases hq : e ∈ q.results
    · exact h₂.forgotten e hq hne
    · exact hP _ (h₁.forgotten e he hq)

/-- **A probe that is told of the end of a flow forgets that flow only.** -/
theorem of_forget {t : Option Transition} (hq : p.forget h = .ok (q, t)) : p.Forgets (· = h) q := by
  have hdrop : p.Forgets (· = h) { p with results := p.results.filter fun e ↦ e.1 ≠ h } :=
    ⟨rfl, List.filter_sublist, fun e he hne ↦ by
      by_contra hother
      exact hne (List.mem_filter.2 ⟨he, by simpa using hother⟩)⟩
  rw [forget] at hq
  split at hq
  · obtain ⟨rfl, -⟩ := Prod.mk.inj (Except.ok.inj hq)
    exact refl _ _
  · split at hq
    · obtain ⟨⟨q', t'⟩, hcount, hq⟩ := Checked.map_eq_ok.1 hq
      obtain ⟨rfl, -⟩ := Prod.mk.inj hq
      rw [countDown] at hcount
      split at hcount
      · cases hcount
      · obtain ⟨rfl, -⟩ := Prod.mk.inj (Except.ok.inj hcount)
        exact ⟨rfl, hdrop.results, hdrop.forgotten⟩
    · obtain ⟨rfl, -⟩ := Prod.mk.inj (Except.ok.inj hq)
      exact hdrop

end Probe.Forgets

/-- The node has lost some of what it lists, and flows that it has forgotten have the property. -/
structure Node.Fades (P : Handle → Prop) (n m : Node) : Prop where
  same : m = { n with next := m.next, prev := m.prev, flows := m.flows, role := m.role }
  next : m.next.Sublist n.next
  prev : m.prev.Sublist n.prev
  flows : m.flows.Sublist n.flows
  role : m.role = n.role ∨ ∃ p q, n.role = .probe p ∧ m.role = .probe q ∧ p.Forgets P q

namespace Node.Fades

theorem refl (P : Handle → Prop) (n : Node) : n.Fades P n :=
  ⟨rfl, .refl _, .refl _, .refl _, .inl rfl⟩

/-- A node that fades twice has faded. -/
theorem trans (h₁ : n.Fades P m) (h₂ : m.Fades Q o) (hP : ∀ h, P h → Q h) : n.Fades Q o := by
  refine ⟨?_, h₂.next.trans h₁.next, h₂.prev.trans h₁.prev, h₂.flows.trans h₁.flows, ?_⟩
  · rw [h₂.same, h₁.same]
  · rcases h₁.role with he | ⟨p, q, hn, hm, hpq⟩
    · rcases h₂.role with he' | ⟨p, q, hn, hm, hpq⟩
      · exact .inl (he'.trans he)
      · exact .inr ⟨p, q, he ▸ hn, hm, hpq⟩
    · rcases h₂.role with he' | ⟨p', q', hn', hm', hpq'⟩
      · exact .inr ⟨p, q, hn, he' ▸ hm, hpq.trans (.refl Q q) hP⟩
      · obtain rfl := Role.probe.inj (hm.symm.trans hn')
        exact .inr ⟨p, q', hn, hm', hpq.trans hpq' hP⟩

/-- More may have been forgotten. -/
theorem imp (hf : n.Fades P m) (hP : ∀ h, P h → Q h) : n.Fades Q m := hf.trans (.refl Q m) hP

/-- A node keeps its key. -/
theorem key_eq (hf : n.Fades P m) : m.key = n.key :=
  (congrArg Node.key hf.same).trans rfl

/-- What fades is the same node. -/
theorem core_eq (hf : n.Fades P m) : m.core = n.core := by
  rw [hf.same]
  rcases hf.role with he | ⟨p, q, hn, hm, -⟩
  · rw [he, Node.core, Node.core]
  · simp [Node.core, hn, hm, Role.kind]

end Node.Fades

/-- Two lists that are related to one between them. -/
theorem forall₂_comp {α β γ : Type} {R : α → β → Prop} {T : β → γ → Prop} {U : α → γ → Prop}
    {as : List α} {bs : List β} {cs : List γ} (h₁ : List.Forall₂ R as bs)
    (h₂ : List.Forall₂ T bs cs) (hU : ∀ a b c, R a b → T b c → U a c) : List.Forall₂ U as cs := by
  induction h₁ generalizing cs with
  | nil =>
    cases h₂
    exact .nil
  | cons hab _ ih =>
    cases h₂ with
    | cons hbc h₂ => exact .cons (hU _ _ _ hab hbc) (ih h₂)

/-- What has become of the network by removing flows and pipes. Flows in `X` may have been forgotten
already, all others only if they are gone. -/
structure Network.Wanes (X : Set Handle) (net net' : Network) : Prop where
  outline : net' = { net with nodes := net'.nodes, pipes := net'.pipes, flows := net'.flows }
  nodes : List.Forall₂ (Node.Fades fun h ↦ h ∈ X ∨ net'.flows.find? h = none) net.nodes net'.nodes
  flows : Dwindles net.flows net'.flows
  pipes : ∀ h a, net'.pipes.find? h = some a → net.pipes.find? h = some a

namespace Network.Wanes

theorem refl (X : Set Handle) (net : Network) : net.Wanes X net :=
  ⟨rfl, List.forall₂_same.2 fun n _ ↦ .refl _ n, .refl _, fun _ _ ha ↦ ha⟩

theorem trans (h₁ : net.Wanes X net') (h₂ : net'.Wanes Y net'') : net.Wanes (X ∪ Y) net'' := by
  refine ⟨?_, ?_, h₁.flows.trans h₂.flows, fun h a ha ↦ h₁.pipes h a (h₂.pipes h a ha)⟩
  · rw [h₂.outline, h₁.outline]
  · refine forall₂_comp h₁.nodes h₂.nodes fun n m o hnm hmo ↦ ?_
    exact hnm.trans (hmo.imp fun h hh ↦ hh.imp_left .inr) fun h hh ↦ hh.imp .inl h₂.flows.gone

/-- Flows that are gone by now may have been forgotten. -/
theorem settle (hw : net.Wanes X net') (hX : ∀ h ∈ X, h ∈ Y ∨ net'.flows.find? h = none) :
    net.Wanes Y net' :=
  { hw with nodes := hw.nodes.imp fun _ _ hf ↦ hf.imp fun h hh ↦ hh.elim (hX h) .inr }

/-- The nodes are the same, by key. -/
theorem keys (hw : net.Wanes X net') : net'.nodes.map Node.key = net.nodes.map Node.key := by
  have hkeys := hw.nodes
  generalize net.nodes = ns, net'.nodes = ms at hkeys
  induction hkeys with
  | nil => rfl
  | cons hf _ ih => rw [List.map_cons, List.map_cons, hf.key_eq, ih]

/-- A change of one node. -/
theorem withNode {e : Node → Node}
    (he : ∀ n ∈ net.nodes, n.key = key → n.Fades (fun h ↦ h ∈ X ∨ net.flows.find? h = none) (e n)) :
    net.Wanes X (Engine.withNode net key e) := by
  refine ⟨rfl, ?_, .refl _, fun _ _ ha ↦ ha⟩
  rw [List.forall₂_map_right_iff]
  refine List.forall₂_same.2 fun n hn ↦ ?_
  split
  · exact he n hn (beq_iff_eq.1 ‹_›)
  · exact .refl _ n

/-- A flow that loses children. -/
theorem withFlow {e : Flow → Flow}
    (he : ∀ f, ∃ cs, cs.Sublist f.children ∧ e f = { f with children := cs }) :
    net.Wanes X (Engine.withFlow net h e) :=
  ⟨rfl, List.forall₂_same.2 fun n _ ↦ .refl _ n, .modify he, fun _ _ ha ↦ ha⟩

end Network.Wanes

/-- A node that is left is left of one that was there. -/
theorem Network.Wanes.exists_fades (hw : net.Wanes X net') (hm : m ∈ net'.nodes) :
    ∃ n ∈ net.nodes, n.Fades (fun h ↦ h ∈ X ∨ net'.flows.find? h = none) m := by
  obtain ⟨i, hi, rfl⟩ := List.mem_iff_getElem.1 hm
  have hlen := hw.nodes.length_eq
  exact ⟨net.nodes[i], List.getElem_mem _, hw.nodes.get (by omega) hi⟩

/-! ### Dropping

The parts of dropping a tree, from a single flow to the walk over its children. -/

namespace Engine

/-- **A probe that is told of the end of a flow forgets it.** -/
theorem Leads.wanes_gone (hnodup : (net.nodes.map Node.key).Nodup)
    (hl : Leads (Engine.notify key h gone) net () net') : net.Wanes {h} net' := by
  obtain ⟨rfl, -⟩ | ⟨n, p, c, q, t, hn, hp, -, hc, hq, rfl⟩ := hl.notify
  · exact .refl _ _
  · obtain rfl : c = .deleted := (Except.ok.inj hc).symm
    obtain ⟨hmem, hkey⟩ := nodeAt?_eq_some hn
    refine .withNode fun m hm hmkey ↦ ?_
    obtain rfl := eq_of_key_eq hnodup hm hmem (hmkey.trans hkey.symm)
    have hrole : m.role = .probe p := by
      cases hrole : m.role <;> simp_all [Node.probe?]
    exact ⟨rfl, .refl _, .refl _, .refl _, .inr ⟨p, q, hrole, rfl,
      (Probe.Forgets.of_forget hq).trans (.refl _ _) fun g hg ↦ .inl hg⟩⟩

/-- **A probe forgets a flow, and the flow loses its children.** -/
theorem Leads.wanes_detachChildren (hnodup : (net.nodes.map Node.key).Nodup)
    (hl : Leads (Engine.detachChildren h f) net () net') :
    net.Wanes {h} net' ∧ net'.pipes = net.pipes ∧
      net'.flows = net.flows.modify h fun f ↦ { f with children := [] } := by
  have hq := hl.detachChildren hnodup
  refine ⟨?_, congrArg Layout.pipes hq.layout, hq.flows⟩
  rw [Engine.detachChildren, leads_updateFlow_bind, leads_network_bind] at hl
  have hdetach : net.Wanes {h} (withFlow net h fun f ↦ { f with children := [] }) :=
    .withFlow fun f ↦ ⟨[], List.nil_sublist _, rfl⟩
  rcases hl.ite with ⟨-, hl⟩ | ⟨-, hl⟩
  · exact (hdetach.trans (Leads.wanes_gone (by exact hnodup) hl)).settle fun g hg ↦
      .inl (hg.elim id id)
  · obtain ⟨-, rfl⟩ := leads_pure.1 hl
    exact hdetach

/-- A flow goes, and its node lists it no more. -/
theorem Leads.wanes_discardFlow (hl : Leads (Engine.discardFlow h key) net () net') :
    net.Wanes ∅ net' ∧ net'.pipes = net.pipes ∧ net'.flows = net.flows.erase h := by
  rw [Engine.discardFlow, leads_update_bind, leads_updateNode] at hl
  subst hl
  refine ⟨⟨rfl, ?_, .erase _ _, fun _ _ ha ↦ ha⟩, rfl, rfl⟩
  rw [List.forall₂_map_right_iff]
  refine List.forall₂_same.2 fun n _ ↦ ?_
  split
  · exact ⟨rfl, .refl _, .refl _, List.filter_sublist, .inl rfl⟩
  · exact .refl _ n

/-- Flows are gone, but only such as came from the one with the handle. -/
structure Felled (h : Handle) (net net' : Network) : Prop where
  wanes : net.Wanes ∅ net'
  pipes : net'.pipes = net.pipes
  kept : ∀ g k, net.flows.find? g = some k → ¬ net.flows.Descends h g →
    ∃ k', net'.flows.find? g = some k'

namespace Felled

theorem refl (h : Handle) (net : Network) : Felled h net net :=
  ⟨.refl _ _, rfl, fun _ k hk _ ↦ ⟨k, hk⟩⟩

/-- Felling what came from a flow that itself came from `h`. -/
theorem trans (h₁ : Felled h net net') (h₂ : Felled c net' net'')
    (hc : ∀ k, net'.flows.find? c = some k → net.flows.Descends h c) : Felled h net net'' := by
  refine ⟨(h₁.wanes.trans h₂.wanes).settle fun g hg ↦ .inl (hg.elim id id), h₂.pipes.trans h₁.pipes,
    fun g k hk hg ↦ ?_⟩
  obtain ⟨k', hk'⟩ := h₁.kept g k hk hg
  refine h₂.kept g k' hk' fun hd ↦ hg ?_
  obtain ⟨kc, hkc⟩ := hd.live
  exact (hc kc hkc).trans (h₁.wanes.flows.descends hd)

end Felled

/-- The computation takes nothing but flows that came from the one with the handle. -/
def Fells (drop : Handle → Engine Unit) (h : Handle) : Prop :=
  ∀ net net', Leads (drop h) net () net' → (net.nodes.map Node.key).Nodup → net.flows.Kindred →
    Felled h net net'

/-- **Dropping what came from a flow**, one flow after the other. -/
theorem felled_forM {drop : Handle → Engine Unit} {cs : List Handle}
    (hdrop : ∀ c ∈ cs, Fells drop c) (hl : Leads (cs.forM drop) net () net')
    (hnodup : (net.nodes.map Node.key).Nodup) (hkin : net.flows.Kindred)
    (hcs : ∀ c ∈ cs, ∀ k, net.flows.find? c = some k → net.flows.Descends h c) :
    Felled h net net' := by
  refine hl.forM (I := fun _ mid ↦ Felled h net mid) (.refl h net)
    fun c rest mid mid' hc hmid hstep ↦ ?_
  refine hmid.trans (hdrop c hc mid mid' hstep (hmid.wanes.keys ▸ hnodup)
    (hkin.dwindles hmid.wanes.flows)) fun k hk ↦ ?_
  obtain ⟨k₀, hk₀, -⟩ := hmid.wanes.flows.way hk
  exact hcs c hc k₀ hk₀

/-- **Taking the children from a flow and dropping them** has the flow forgotten, though it
stays. -/
theorem wanes_dropChildren {drop : Handle → Engine Unit} {mid : Network}
    (hdrop : ∀ c ∈ f.children, Fells drop c) (hdetach : Leads (detachChildren h f) net () mid)
    (hloop : Leads (f.children.forM drop) mid () net') (hnodup : (net.nodes.map Node.key).Nodup)
    (hkin : net.flows.Kindred) (hf : net.flows.find? h = some f) :
    net.Wanes {h} net' ∧ net'.pipes = net.pipes ∧ ∀ g k, net.flows.find? g = some k →
      ¬ net.flows.Descends h g → ∃ k', net'.flows.find? g = some k' := by
  obtain ⟨h₁, hpipes, hflows⟩ := hdetach.wanes_detachChildren hnodup
  have hself : mid.flows.find? h = some { f with children := [] } := by
    rw [hflows, Arena.find?_modify_self hf]
  have h₂ : Felled h mid net' := by
    refine felled_forM hdrop hloop (h₁.keys ▸ hnodup) (hkin.dwindles h₁.flows) fun c hc k hk ↦ ?_
    obtain ⟨k₀, hk₀, hway⟩ := h₁.flows.way hk
    exact .step hk ((Flow.parent_eq hway).trans (hkin h f c k₀ hf hc hk₀)) (.refl hself)
  refine ⟨(h₁.trans h₂.wanes).settle fun g hg ↦
    hg.elim .inl fun hg ↦ absurd hg (Set.notMem_empty g), h₂.pipes.trans hpipes, fun g k hk hg ↦
      h₂.kept g k ?_ fun hd ↦ hg (h₁.flows.descends hd)⟩
  rw [hflows, Arena.find?_modify_of_ne, hk]
  rintro rfl
  exact hg (.refl hk)

/-- **Dropping a tree takes only what came from its top.** -/
theorem fells_dropTree (fuel : Nat) (h : Handle) : Fells (dropTree fuel) h := by
  induction fuel generalizing h with
  | zero =>
    intro net net' hl _ _
    obtain ⟨-, rfl⟩ := leads_pure.1 hl
    exact .refl h _
  | succ fuel ih =>
    intro net net' hl hnodup hkin
    rw [dropTree, leads_flow?_bind] at hl
    cases hf : net.flows.find? h with
    | none =>
      rw [hf] at hl
      obtain ⟨-, rfl⟩ := leads_pure.1 hl
      exact .refl h _
    | some f =>
      rw [hf] at hl
      obtain ⟨⟨⟩, net₁, hdetach, hl⟩ := hl.bind
      obtain ⟨⟨⟩, net₂, hloop, hdiscard⟩ := hl.bind
      obtain ⟨h₂, hpipes₂, hkept⟩ :=
        wanes_dropChildren (fun c _ ↦ ih c) hdetach hloop hnodup hkin hf
      obtain ⟨h₃, hpipes₃, hflows₃⟩ := hdiscard.wanes_discardFlow
      -- the flow was forgotten before it was gone, and it is gone now
      refine ⟨(h₂.trans h₃).settle ?_, hpipes₃.trans hpipes₂, fun g k hk hg ↦ ?_⟩
      · rintro g (rfl | hg)
        · exact .inr (by rw [hflows₃, Arena.find?_erase, if_pos rfl])
        · exact .inl hg
      · have hne : g ≠ h := by
          rintro rfl
          exact hg (.refl hk)
        obtain ⟨k', hk'⟩ := hkept g k hk hg
        exact ⟨k', by rw [hflows₃, Arena.find?_erase, if_neg hne, hk']⟩

/-- The number of slots is fuel enough. -/
theorem fells_dropSubtree (h : Handle) : Fells dropSubtree h := by
  intro net net' hl
  rw [dropSubtree, leads_network_bind] at hl
  exact fells_dropTree _ h net net' hl

/-- **Removing a flow takes only what came from it.** -/
theorem fells_removeFlow (h : Handle) : Fells removeFlow h := by
  intro net net' hl hnodup hkin
  rw [removeFlow, leads_flow?_bind] at hl
  cases hf : net.flows.find? h with
  | none =>
    rw [hf] at hl
    obtain ⟨-, rfl⟩ := leads_pure.1 hl
    exact .refl h _
  | some f =>
    rw [hf] at hl
    obtain ⟨⟨⟩, net₁, hunlink, hdrop⟩ := hl.bind
    have h₁ : Felled h net net₁ := by
      rw [unlink] at hunlink
      cases hp : f.parent with
      | none =>
        rw [hp] at hunlink
        obtain ⟨-, rfl⟩ := leads_pure.1 hunlink
        exact .refl h _
      | some p =>
        rw [hp] at hunlink
        obtain rfl := leads_updateFlow.1 hunlink
        refine ⟨.withFlow fun f ↦ ⟨_, List.filter_sublist, rfl⟩, rfl, fun g k hk _ ↦ ?_⟩
        rw [Arena.find?_modify]
        split
        · rename_i hgp
          exact ⟨_, by rw [← hgp, hk]; rfl⟩
        · exact ⟨k, hk⟩
    exact h₁.trans (fells_dropSubtree h net₁ net' hdrop (h₁.wanes.keys ▸ hnodup)
      (hkin.dwindles h₁.wanes.flows)) fun _ _ ↦ .refl hf

end Engine

/-! ### Nothing goes that need not

The sets of flows and pipes that may go are given beforehand, by properties that do not change while
the network does. -/

/-- The flow is none of those described, and came from none of them. -/
def Arena.Spared (F : Arena Flow) (S : Flow → Prop) (g : Handle) : Prop :=
  ∀ h f, F.find? h = some f → S f → ¬ F.Descends h g

/-- The handle names a side that is described, or the other side of such a pipe. -/
def Network.Cut (net : Network) (T : Handle → Pipe → Prop) (k : Handle) : Prop :=
  ∃ h a, net.pipes.find? h = some a ∧ T h a ∧ (k = h ∨ k = a.reverse)

/-- Flows described by `S` are gone, with what came from them, and pipes described by `T`, but
nothing else. -/
structure Network.Loses (S : Flow → Prop) (T : Handle → Pipe → Prop) (net net' : Network) :
    Prop where
  wanes : net.Wanes ∅ net'
  flows : ∀ g k, net.flows.find? g = some k → net.flows.Spared S g →
    ∃ k', net'.flows.find? g = some k'
  pipes : ∀ k a, net.pipes.find? k = some a → ¬ net.Cut T k → net'.pipes.find? k = some a

namespace Network.Loses

variable {T : Handle → Pipe → Prop}

theorem refl (S : Flow → Prop) (T : Handle → Pipe → Prop) (net : Network) : net.Loses S T net :=
  ⟨.refl _ _, fun _ k hk _ ↦ ⟨k, hk⟩, fun _ _ ha _ ↦ ha⟩

/-- One more step, in which flows go that came from described ones, and described pipes. -/
theorem step (hS : ∀ f f' : Flow, f'.way = f.way → S f' → S f) (hl : net.Loses S T net')
    (hw : net'.Wanes ∅ net'')
    (hflows : ∀ g k, net'.flows.find? g = some k → net'.flows.Spared S g →
      ∃ k', net''.flows.find? g = some k')
    (hpipes : ∀ k a, net'.pipes.find? k = some a → ¬ net.Cut T k → net''.pipes.find? k = some a) :
    net.Loses S T net'' := by
  refine ⟨(hl.wanes.trans hw).settle fun g hg ↦ .inl (hg.elim id id), fun g k hk hg ↦ ?_,
    fun k a ha hk ↦
    hpipes k a (hl.pipes k a ha hk) hk⟩
  obtain ⟨k', hk'⟩ := hl.flows g k hk hg
  refine hflows g k' hk' fun h f' hf' hSf hd ↦ ?_
  obtain ⟨f, hf, hway⟩ := hl.wanes.flows.way hf'
  exact hg h f hf (hS f f' hway hSf) (hl.wanes.flows.descends hd)

/-- Nodes have different keys still. -/
theorem nodup (hl : net.Loses S T net') (hnodup : (net.nodes.map Node.key).Nodup) :
    (net'.nodes.map Node.key).Nodup := hl.wanes.keys ▸ hnodup

/-- **Removing a described flow takes only what came from it.** -/
theorem removeFlow (hS : ∀ f f' : Flow, f'.way = f.way → S f' → S f) (hl : net.Loses S T net')
    (hrun : Leads (Engine.removeFlow h) net' () net'') (hnodup : (net.nodes.map Node.key).Nodup)
    (hkin : net.flows.Kindred) (hh : ∀ f, net'.flows.find? h = some f → S f) :
    net.Loses S T net'' := by
  have hfell := fells_removeFlow h net' net'' hrun (hl.nodup hnodup) (hkin.dwindles hl.wanes.flows)
  refine hl.step hS hfell.wanes (fun g k hk hg ↦ hfell.kept g k hk fun hd ↦ ?_) fun k a ha _ ↦
    hfell.pipes ▸ ha
  obtain ⟨f, hf⟩ := hd.live
  exact hg h f hf (hh f hf) hd

/-- A walk over flows, all of which are described, or are left alone. -/
theorem forM {α : Type} {l : List α} {body : α → Engine Unit} (hl : net.Loses S T net')
    (hrun : Leads (l.forM body) net' () net'')
    (hbody : ∀ a ∈ l, ∀ mid mid', net.Loses S T mid → Leads (body a) mid () mid' →
      net.Loses S T mid') :
    net.Loses S T net'' :=
  hrun.forM (I := fun _ mid ↦ net.Loses S T mid) hl fun a _ mid mid' ha hmid hstep ↦
    hbody a ha mid mid' hmid hstep

/-- **Both sides of a described pipe are removed.** -/
theorem removePipe (hS : ∀ f f' : Flow, f'.way = f.way → S f' → S f) (hl : net.Loses S T net')
    (hrun : Leads (Engine.removePipe h) net' () net'')
    (hT : ∀ a, net.pipes.find? h = some a → T h a) : net.Loses S T net'' := by
  rw [Engine.removePipe, leads_pipe?_bind] at hrun
  have hside : ∀ {k : Handle} {a : Pipe} {x y : Network}, net.Cut T k → net.Loses S T x →
      Leads (removeSide k a) x () y → net.Loses S T y := by
    intro k a x y hk hx hside
    rw [removeSide, leads_update_bind, leads_updateNode] at hside
    subst hside
    refine hx.step hS ⟨rfl, ?_, .refl _, fun g b hb ↦ ?_⟩ (fun g k hk _ ↦ ⟨k, hk⟩)
      fun g b hb hg ↦ ?_
    · rw [List.forall₂_map_right_iff]
      refine List.forall₂_same.2 fun n _ ↦ ?_
      split
      · exact ⟨rfl, List.filter_sublist, List.filter_sublist, .refl _, .inl rfl⟩
      · exact .refl _ n
    · rw [Arena.find?_erase] at hb
      split at hb
      · cases hb
      · exact hb
    · rw [Arena.find?_erase, if_neg, hb]
      rintro rfl
      exact hg hk
  cases hh : net'.pipes.find? h with
  | none =>
    rw [hh] at hrun
    obtain ⟨-, rfl⟩ := leads_pure.1 hrun
    exact hl
  | some a =>
    simp only [hh] at hrun
    have ha := hl.wanes.pipes h a hh
    obtain ⟨⟨⟩, mid, hfirst, hrun⟩ := hrun.bind
    have hmid := hside ⟨h, a, ha, hT a ha, .inl rfl⟩ hl hfirst
    rw [leads_pipe?_bind] at hrun
    cases hb : mid.pipes.find? a.reverse with
    | none =>
      simp only [hb] at hrun
      obtain ⟨-, rfl⟩ := leads_pure.1 hrun
      exact hmid
    | some b =>
      simp only [hb] at hrun
      exact hside ⟨h, a, ha, hT a ha, .inr rfl⟩ hmid hrun

end Network.Loses

/-! ### Along a link, and at a node -/

/-- The side is the forward side of a pipe along the link. -/
def Network.SideAlong (net : Network) (l : Link) (fwd : Handle) (a : Pipe) : Prop :=
  (∃ n ∈ net.nodes, fwd ∈ n.next) ∧ a.port = l.source ∧
    ∃ b, net.pipes.find? a.reverse = some b ∧ b.port = l.target

/-- The flow came by a pipe along the link. -/
def Network.CameAlong (net : Network) (l : Link) (f : Flow) : Prop :=
  ∃ fwd a, f.pipe = some fwd ∧ net.pipes.find? fwd = some a ∧ net.SideAlong l fwd a

namespace Engine

/-- **Cutting a pipe takes flows that came along the link**, and what came from them. -/
theorem Leads.loses_cutPipe {mid : Network} {fwd : Handle}
    (hl : Leads (Engine.cutPipe l fwd) mid () net')
    (hmid : net.Loses (net.CameAlong l) (net.SideAlong l) mid)
    (hnodup : (net.nodes.map Node.key).Nodup) (hkin : net.flows.Kindred)
    (hn : ∃ n ∈ net.nodes, fwd ∈ n.next) : net.Loses (net.CameAlong l) (net.SideAlong l) net' := by
  have hS : ∀ f f' : Flow, f'.way = f.way → net.CameAlong l f' →
      net.CameAlong l f := fun f f' hway hf ↦ by
    obtain ⟨fwd, a, hpipe, hf⟩ := hf
    exact ⟨fwd, a, (Flow.pipe_eq hway).symm.trans hpipe, hf⟩
  rw [Engine.cutPipe, leads_pipe_bind] at hl
  obtain ⟨a, ha, hl⟩ := hl
  rcases hl.ite with ⟨-, hl⟩ | ⟨hport, hl⟩
  · exact (leads_pure.1 hl).2 ▸ hmid
  rw [leads_pipe_bind] at hl
  obtain ⟨b, hb, hl⟩ := hl
  rcases hl.ite with ⟨-, hl⟩ | ⟨hport', hl⟩
  · exact (leads_pure.1 hl).2 ▸ hmid
  have ha' := hmid.wanes.pipes fwd a ha
  have hside : net.SideAlong l fwd a := by
    refine ⟨hn, ?_, b, hmid.wanes.pipes _ b hb, ?_⟩
    · simpa using hport
    · simpa using hport'
  rw [leads_node_bind] at hl
  obtain ⟨r, -, hl⟩ := hl
  obtain ⟨⟨⟩, mid', hremove, hrest⟩ := hl.bind
  refine (hmid.forM hremove fun h _ x y hx hstep ↦ ?_).removePipe hS hrest fun a'' ha'' ↦ ?_
  · rw [leads_flow?_bind] at hstep
    rcases hstep.ite with ⟨hany, hrun⟩ | ⟨-, hrun⟩
    · refine hx.removeFlow hS hrun hnodup hkin fun f hf ↦ ⟨fwd, a, ?_, ha', hside⟩
      simpa [hf] using hany
    · exact (leads_pure.1 hrun).2 ▸ hx
  · obtain rfl := Option.some.inj (ha'.symm.trans ha'')
    exact hside

/-- **Disconnecting along a link.** -/
theorem Leads.loses_disconnectLink (hl : Leads (Engine.disconnectLink l) net () net')
    (hnodup : (net.nodes.map Node.key).Nodup) (hkin : net.flows.Kindred) :
    net.Loses (net.CameAlong l) (net.SideAlong l) net' := by
  rw [Engine.disconnectLink, leads_network_bind] at hl
  refine (Network.Loses.refl _ _ net).forM hl fun s _ mid mid' hmid hstep ↦ ?_
  rw [leads_node_bind] at hstep
  obtain ⟨m, hm, hstep⟩ := hstep
  obtain ⟨n, hn, hfades⟩ := hmid.wanes.exists_fades (nodeAt?_eq_some hm).1
  exact hmid.forM hstep fun fwd hfwd x y hx hcut ↦
    hcut.loses_cutPipe hx hnodup hkin ⟨n, hn, hfades.next.subset hfwd⟩

/-- **Removing the flows of a node and its pipes.** -/
theorem loses_isolate {mid : Network} (hremove : Leads (removeFlows key) net () mid)
    (hdisconnect : Leads (disconnect key) mid () net') (hnodup : (net.nodes.map Node.key).Nodup)
    (hkin : net.flows.Kindred) (hroster : ∀ n ∈ net.nodes, n.key = key → ∀ h ∈ n.flows, ∀ f,
      net.flows.find? h = some f → f.node = key)
    (hsides : ∀ n ∈ net.nodes, n.key = key → ∀ h ∈ n.next ++ n.prev, ∀ a,
      net.pipes.find? h = some a → a.node = key) :
    net.Loses (fun f ↦ f.node = key) (fun _ a ↦ a.node = key) net' := by
  have hS : ∀ f f' : Flow, f'.way = f.way → f'.node = key → f.node = key := fun f f' hway hf ↦
    (Flow.node_eq hway).symm.trans hf
  rw [removeFlows, leads_node_bind] at hremove
  obtain ⟨n, hn, hremove⟩ := hremove
  obtain ⟨hmem, hkey⟩ := nodeAt?_eq_some hn
  have hmid : net.Loses (fun f ↦ f.node = key) (fun _ a ↦ a.node = key) mid := by
    refine (Network.Loses.refl _ _ net).forM hremove fun h hh x y hx hstep ↦
      hx.removeFlow hS hstep hnodup hkin fun f hf ↦ ?_
    obtain ⟨f₀, hf₀, hway⟩ := hx.wanes.flows.way hf
    exact (Flow.node_eq hway).trans (hroster n hmem hkey h hh f₀ hf₀)
  rw [disconnect, leads_node_bind] at hdisconnect
  obtain ⟨m, hm, hdisconnect⟩ := hdisconnect
  obtain ⟨hmem', hkey'⟩ := nodeAt?_eq_some hm
  obtain ⟨n', hn', hfades⟩ := hmid.wanes.exists_fades hmem'
  refine hmid.forM hdisconnect fun h hh x y hx hstep ↦ hx.removePipe hS hstep fun a ha ↦ ?_
  refine hsides n' hn' (hfades.key_eq.symm.trans hkey') h ?_ a ha
  exact (hfades.next.append hfades.prev).subset hh

end Engine

end HeaderFlow
