import HeaderFlow.Proofs.Hiding
import HeaderFlow.Proofs.Network.Mutation
import HeaderFlow.Proofs.Network.Widths

/-!
# Computations that break no precondition

A change that is broken off leaves the network in a state that no change that comes to its end ever
leaves it in: rules may have headers that they should not have, and the flow that was on its way
when the budget was overrun is **in the arena, but on no list**. Nothing ever finds it there. So the
network without this flow, its *core*, is what later changes see, and the core is well formed: it is
`Firm`.

`Engine.Safe` says of a computation, started on a core, that

* it has no fault, whatever flows are hidden in the network that it is really run on;
* if it comes to its end, it does with that network what it would do with the core;
* if it is broken off, the network stands on a firm core again, with perhaps one more flow hidden.

There is a rule for each elementary step and one for sequencing. In a sequence, what the first part
has done is known from `Engine.Leads`, about the core.

## Why the core is enough

All that was shown of computations that come to their end is about networks whose arena has no
hidden flow. Since a safe computation does the same with the core and with the network, those
theorems apply to the core and no second invariant has to be carried through the engine. What
remains to be shown for a step is only that it looks up nothing that is not there, and that lengths
agree.

`Braced` is the condition for halting: if the computation stopped here, the network would stand. It
has to be shown where a visit is entered, and only there.
-/

namespace HeaderFlow

open Checked (Gives)

variable {α β : Type} {net net' : Network} {n : Nat} {G : Set Handle} {F : Arena Flow} {h : Handle}
  {f : Flow} {key : NodeKey}

namespace Network

/-- The network with other flows. -/
abbrev withFlows (net : Network) (F : Arena Flow) : Network := { net with flows := F }

/-- What a change relies on: flows form trees along the pipes, pipes and influences are recorded at
both ends. **Nothing is asked of headers**, which a change that is broken off leaves as they are. -/
structure Firm (net : Network) : Prop where
  inv : Inv net ∅ Set.univ
  ordered : net.layout.Ordered ∅

/-- The network is what is left of one with the flows `F` if those in `G` are not looked at. All
headers have `n` bytes, also in what is not looked at. -/
structure Hides (net : Network) (n : Nat) (G : Set Handle) (F : Arena Flow) : Prop where
  bytes : net.bytes = n
  flows : Arena.Hides G F net.flows
  fit : (net.withFlows F).Fit

/-- The network is firm up to flows that are never looked at. -/
def Stands (net : Network) : Prop :=
  ∃ G, ∃ core : Network, core.Firm ∧ core.Hides net.bytes G net.flows ∧
    net = core.withFlows net.flows

/-- Propagation leaves the layout alone, so a firm network stays firm. -/
theorem Firm.propagate (hfirm : net.Firm) (hI : Inv net' ∅ Set.univ)
    (hlayout : net'.layout = net.layout) : net'.Firm :=
  ⟨hI, hlayout ▸ hfirm.ordered⟩

/-- Quiet steps leave a network firm. -/
theorem Firm.quiet (hfirm : net.Firm) (hq : Quiet net net') : net'.Firm :=
  hfirm.propagate (hq.inv hfirm.inv) hq.layout

/-- What is looked at has the length of the headers. -/
theorem Hides.fitCore (hH : net.Hides n G F) : net.Fit :=
  ⟨hH.fit.nodes, hH.fit.pipes, hH.fit.influences,
    fun h f hf ↦ hH.fit.flows h f (hH.flows.find_some hf)⟩

end Network

namespace Engine

/-- Started on any network of which `net` is what is looked at, the computation has no fault. It
does with `net` what it does with that network, and stands if it is broken off. -/
def Safe (n : Nat) (x : Engine α) (net : Network) : Prop :=
  ∀ G F reports, net.Hides n G F →
    match x ⟨net.withFlows F, reports⟩ with
    | .ok a p => ∃ net' F', p.network = net'.withFlows F' ∧ net'.Hides n G F' ∧
        x ⟨net, reports⟩ = .ok a ⟨net', p.reports⟩
    | .error (.overrun _) p => p.network.Stands
    | .error (.fault _) _ => False

/-! ### Sequencing

The second part is started on the core that the first one has led to. What that core is like is
known from `Leads`, so the rule hands it on. -/

theorem safe_pure {a : α} : Safe n (pure a) net := fun _ F _ hH ↦ ⟨net, F, rfl, hH, rfl⟩

/-- **A sequence is safe if its first part is, and the rest is wherever that leads.** -/
theorem safe_bind {x : Engine α} {k : α → Engine β} (hx : Safe n x net)
    (hk : ∀ a mid, Leads x net a mid → Safe n (k a) mid) : Safe n (x >>= k) net := by
  intro G F reports hH
  have hfirst := hx G F reports hH
  simp only [bind, EStateM.bind]
  cases hrun : x ⟨net.withFlows F, reports⟩ with
  | error e p =>
    rw [hrun] at hfirst
    cases e with
    | overrun o => exact hfirst
    | fault o => exact hfirst
  | ok a p =>
    simp only [hrun] at hfirst
    obtain ⟨mid, F', hp, hH', hcore⟩ := hfirst
    have hrest := hk a mid ⟨reports, p.reports, hcore⟩ G F' p.reports hH'
    rw [← hp] at hrest
    simpa only [hcore] using hrest

/-- A change of the answer is safe. -/
theorem safe_map {x : Engine α} {k : α → β} (hx : Safe n x net) : Safe n (k <$> x) net := by
  rw [map_eq_pure_bind]
  exact safe_bind hx fun _ _ _ ↦ safe_pure

theorem safe_discard {x : Engine α} (hx : Safe n x net) : Safe n (discard x) net := safe_map hx

/-- What is known of the core may be used. -/
theorem safe_of_fit {x : Engine α} (hx : net.bytes = n → net.Fit → Safe n x net) : Safe n x net :=
  fun G F reports hH ↦ hx hH.bytes hH.fitCore G F reports hH

/-- **A walk along a list is safe** if each of its steps is and keeps an invariant, which is told
what part of the list is still to come. -/
theorem safe_forM {l : List α} {x : α → Engine Unit} {I : List α → Network → Prop} (hI : I l net)
    (hstep : ∀ a rest mid, a ∈ l → I (a :: rest) mid → Safe n (x a) mid ∧
      ∀ mid', Leads (x a) mid () mid' → I rest mid') : Safe n (l.forM x) net := by
  induction l generalizing net with
  | nil => exact safe_pure
  | cons a l ih =>
    obtain ⟨hsafe, hnext⟩ := hstep a l net List.mem_cons_self hI
    exact safe_bind (k := fun _ ↦ l.forM x) hsafe fun _ mid hl ↦ ih (hnext mid hl)
      fun a' rest mid' hmem ↦ hstep a' rest mid' (List.mem_cons_of_mem _ hmem)

/-! ### Reading

A lookup is safe if the core has what is looked up, since what is hidden is not asked for. -/

/-- What is read off the network does not depend on the hidden flows. -/
theorem safe_network_bind {k : Network → Engine β}
    (hsame : ∀ G F, net.Hides n G F → k (net.withFlows F) = k net) (hk : Safe n (k net) net) :
    Safe n (network >>= k) net := by
  intro G F reports hH
  have hrest := hk G F reports hH
  change match k (net.withFlows F) ⟨net.withFlows F, reports⟩ with
    | .ok a p => _
    | .error (.overrun _) p => _
    | .error (.fault _) _ => _
  rw [hsame G F hH]
  exact hrest

/-- **A question is safe if it has an answer that does not depend on the hidden flows.** -/
theorem safe_ask_bind {q : Network → Checked α} {k : α → Engine β} {P : α → Prop}
    (hsame : ∀ G F, net.Hides n G F → q (net.withFlows F) = q net) (hq : Gives (q net) P)
    (hk : ∀ a, q net = .ok a → P a → Safe n (k a) net) : Safe n (ask q >>= k) net := by
  obtain ⟨a, ha, hP⟩ := hq
  intro G F reports hH
  have hrest := hk a ha hP G F reports hH
  simpa only [ask_bind_run, hsame G F hH, ha] using hrest

theorem safe_check_bind {c : Checked α} {k : α → Engine β} {P : α → Prop} (hc : Gives c P)
    (hk : ∀ a, c = .ok a → P a → Safe n (k a) net) : Safe n (check c >>= k) net :=
  safe_ask_bind (fun _ _ _ ↦ rfl) hc hk

/-- Looking up a node is safe if it is there. -/
theorem safe_node_bind {m : Node} {k : Node → Engine β} (hm : net.nodeAt? key = some m)
    (hk : Safe n (k m) net) : Safe n (node key >>= k) net := by
  have hnode : net.node key = .ok m := by rw [Network.node, hm]
  refine safe_ask_bind (P := fun _ ↦ True) (fun _ _ _ ↦ rfl) ⟨m, hnode, trivial⟩ fun a ha _ ↦ ?_
  rwa [Except.ok.inj (ha.symm.trans hnode)]

/-- Looking up a flow is safe if it is there. -/
theorem safe_flow_bind {k : Flow → Engine β} (hf : net.flows.find? h = some f)
    (hk : Safe n (k f) net) : Safe n (flow h >>= k) net := by
  have hget : net.flows.get h = .ok f := get_eq_ok.2 hf
  refine safe_ask_bind (P := fun _ ↦ True) (fun G F hH ↦ ?_) ⟨f, hget, trivial⟩ fun a ha _ ↦ ?_
  · exact (get_eq_ok.2 (hH.flows.find_some hf)).trans hget.symm
  · rwa [Except.ok.inj (ha.symm.trans hget)]

theorem safe_pipe_bind {side : Pipe} {k : Pipe → Engine β} (hside : net.pipes.find? h = some side)
    (hk : Safe n (k side) net) : Safe n (pipe h >>= k) net := by
  have hget : net.pipes.get h = .ok side := get_eq_ok.2 hside
  refine safe_ask_bind (P := fun _ ↦ True) (fun _ _ _ ↦ rfl) ⟨side, hget, trivial⟩ fun a ha _ ↦ ?_
  rwa [Except.ok.inj (ha.symm.trans hget)]

/-- A handle that is known names the same in both networks. -/
theorem safe_flow?_bind {k : Option Flow → Engine β} (hh : net.flows.Knows h)
    (hk : Safe n (k (net.flows.find? h)) net) : Safe n (flow? h >>= k) net := by
  refine safe_network_bind (k := fun m ↦ k (m.flows.find? h)) (fun G F hH ↦ ?_) hk
  exact congrArg k (hH.flows.find_eq hh)

theorem safe_pipe?_bind {k : Option Pipe → Engine β} (hk : Safe n (k (net.pipes.find? h)) net) :
    Safe n (pipe? h >>= k) net :=
  safe_network_bind (k := fun m ↦ k (m.pipes.find? h)) (fun _ _ _ ↦ rfl) hk

theorem safe_event_bind {k : Option Event → Engine β} (hk : Safe n (k net.lastEvent) net) :
    Safe n (event >>= k) net :=
  safe_network_bind (k := fun m ↦ k m.lastEvent) (fun _ _ _ ↦ rfl) hk

theorem safe_room_bind {k : Nat → Engine β} (hk : Safe n (k net.budget.maxDepth) net) :
    Safe n (room >>= k) net :=
  safe_network_bind (k := fun m ↦ k m.budget.maxDepth) (fun _ _ _ ↦ rfl) hk

/-! ### Updating

An update of the network is one of the core if it does nothing to hidden flows. For the kinds of
updates that the engine makes, this is seen once and for all. -/

/-- **An update is safe** if it does the same whatever flows are hidden. -/
theorem safe_update {u : Network → Network}
    (hu : ∀ G F, net.Hides n G F → ∃ F', u (net.withFlows F) = (u net).withFlows F' ∧
      (u net).Hides n G F') : Safe n (update u) net := by
  intro G F reports hH
  obtain ⟨F', heq, hH'⟩ := hu G F hH
  exact ⟨u net, F', heq, hH', rfl⟩

/-- An update of what is not a flow. -/
theorem safe_updateRest {u : Network → Network}
    (hu : ∀ F, u (net.withFlows F) = (u net).withFlows F) (hflows : (u net).flows = net.flows)
    (hbytes : (u net).bytes = net.bytes) (hnodes : net.Fit → ∀ m ∈ (u net).nodes, m.Fit net.bytes)
    (hpipes : net.Fit → ∀ h p, (u net).pipes.find? h = some p → p.pattern.bytes = net.bytes)
    (hinfluences : net.Fit → ∀ k i, (u net).influences.find? k = some i →
      i.common.bytes = net.bytes) :
    Safe n (update u) net := by
  refine safe_update fun G F hH ↦ ⟨F, hu F, hbytes.trans hH.bytes, hflows ▸ hH.flows, ?_⟩
  have hfit := hH.fitCore
  refine ⟨?_, ?_, ?_, ?_⟩
  · exact hbytes.symm ▸ hnodes hfit
  · exact hbytes.symm ▸ hpipes hfit
  · exact hbytes.symm ▸ hinfluences hfit
  · exact hbytes.symm ▸ hH.fit.flows

/-- Updating a node is safe if lengths still agree. -/
theorem safe_updateNode {k : Node → Node}
    (hk : ∀ m ∈ net.nodes, m.key = key → m.Fit net.bytes → (k m).Fit net.bytes) :
    Safe n (updateNode key k) net := by
  refine safe_updateRest (fun _ ↦ rfl) rfl rfl (fun hfit m hm ↦ ?_) (fun hfit ↦ hfit.pipes)
    fun hfit ↦ hfit.influences
  obtain ⟨m', hm', rfl⟩ := List.mem_map.1 hm
  split
  · rename_i hkey
    exact hk m' hm' (by simpa using hkey) (hfit.nodes m' hm')
  · exact hfit.nodes m' hm'

/-- The lists of a node are of no account here. -/
theorem safe_updateNode_of_eq {k : Node → Node}
    (hk : ∀ m, (k m).accepts = m.accepts ∧ (k m).sends = m.sends ∧ (k m).role = m.role) :
    Safe n (updateNode key k) net :=
  safe_updateNode fun m _ _ hm ↦
    ⟨(hk m).1 ▸ hm.accepts, (hk m).2.1 ▸ hm.sends, (hk m).2.2 ▸ hm.role⟩

theorem safe_alterNode {m : Node} {k : Node → Node} (hm : net.nodeAt? key = some m)
    (hk : Safe n (updateNode key k) net) : Safe n (alterNode key k) net := safe_node_bind hm hk

/-- A flow that is known may be changed. -/
theorem safe_updateFlow {k : Flow → Flow} (hh : net.flows.Knows h)
    (hk : ∀ f, net.flows.find? h = some f → f.Fit net.bytes → (k f).Fit net.bytes) :
    Safe n (updateFlow h k) net := by
  refine safe_update fun G F hH ↦
    ⟨F.modify h k, rfl, hH.bytes, hH.flows.modify (hH.flows.not_mem hh), ?_⟩
  refine { hH.fit with flows := fun g f' hf' ↦ ?_ }
  have hf' : (F.modify h k).find? g = some f' := hf'
  rw [Arena.find?_modify] at hf'
  split at hf'
  · obtain ⟨f, hf, rfl⟩ := Option.map_eq_some_iff.1 hf'
    exact hk f ((hH.flows.find_eq hh).symm.trans hf) (hH.fit.flows h f hf)
  · exact hH.fit.flows g f' hf'

theorem safe_alterFlow {k : Flow → Flow} (hf : net.flows.find? h = some f)
    (hk : f.Fit net.bytes → (k f).Fit net.bytes) : Safe n (alterFlow h k) net :=
  safe_flow_bind hf (safe_updateFlow (.inr ⟨f, hf⟩) fun f' hf' ↦ by
    obtain rfl := Option.some.inj (hf.symm.trans hf')
    exact hk)

/-- Storing a flow is safe if its lengths agree; the handle is the same whatever is hidden. -/
theorem safe_insertFlow {k : Handle → Flow} (hk : (k net.flows.nextHandle).Fit net.bytes) :
    Safe n (insertFlow k) net := by
  refine safe_network_bind
    (k := fun m ↦ do
      update fun net ↦ { net with flows := net.flows.insert (k m.flows.nextHandle) }
      return m.flows.nextHandle) (fun G F hH ↦ ?_) ?_
  · simp only [hH.flows.nextHandle]
  · refine safe_bind (safe_update fun G F hH ↦ ⟨_, rfl, hH.bytes, hH.flows.insert _, ?_⟩)
      fun _ _ _ ↦ safe_pure
    refine { hH.fit with flows := fun g f' hf' ↦ ?_ }
    rcases Arena.of_find?_insert hH.flows.valid hf' with ⟨-, rfl⟩ | ⟨-, hf⟩
    · exact hk
    · exact hH.fit.flows g f' hf

/-- Erasing a flow is safe if it is known. -/
theorem safe_eraseFlow (hh : net.flows.Knows h) :
    Safe n (update fun net ↦ { net with flows := net.flows.erase h }) net := by
  refine safe_update fun G F hH ↦
    ⟨F.erase h, rfl, hH.bytes, hH.flows.erase (hH.flows.not_mem hh), ?_⟩
  refine { hH.fit with flows := fun g f' hf' ↦ ?_ }
  have hf' : (F.erase h).find? g = some f' := hf'
  rw [Arena.find?_erase] at hf'
  split at hf'
  · exact absurd hf' (by simp)
  · exact hH.fit.flows g f' hf'

theorem safe_setEvent {e : Event} : Safe n (setEvent e) net :=
  safe_updateRest (fun _ ↦ rfl) rfl rfl (fun hfit ↦ hfit.nodes) (fun hfit ↦ hfit.pipes)
    fun hfit ↦ hfit.influences

theorem safe_report {r : Report} : Safe n (report r) net := fun _ F _ hH ↦ ⟨net, F, rfl, hH, rfl⟩

/-! ### Visits

The only place where a computation can be broken off. -/

/-- **The network stands if it is left as it is now**, whatever flows are hidden. -/
def Braced (n : Nat) (net : Network) : Prop :=
  ∀ G F budget, net.Hides n G F → Network.Stands { net.withFlows F with budget := budget }

/-- A firm network may be left as it is. -/
theorem braced_of_firm (hfirm : net.Firm) : Braced n net := fun G _ b hH ↦
  ⟨G, { net with budget := b }, hfirm.quiet (.budget net b),
    ⟨rfl, hH.flows, ⟨hH.fit.nodes, hH.fit.pipes, hH.fit.influences, hH.fit.flows⟩⟩, rfl⟩

/-- Entering a visit is safe if the network may be left as it is. -/
theorem safe_enter (hb : Braced n net) : Safe n enter net := by
  refine safe_network_bind (fun _ _ _ ↦ rfl) ?_
  cases ho : net.budget.enter with
  | mk b o =>
    cases o with
    | none =>
      refine safe_bind (safe_updateRest (fun _ ↦ rfl) rfl rfl (fun hfit ↦ hfit.nodes)
        (fun hfit ↦ hfit.pipes) fun hfit ↦ hfit.influences) fun _ _ _ ↦ safe_pure
    | some o => exact fun G F reports hH ↦ hb G F b hH

theorem safe_tooDeep (hb : Braced n net) : Safe n tooDeep net := fun G F _ hH ↦
  hb G F net.budget hH

/-- **A visit is safe if its body is**, and the network stands before it. -/
theorem safe_visit {body : Engine Unit} (hb : Braced n net)
    (hbody : ∀ b, Safe n body { net with budget := b }) : Safe n (visit body) net := by
  refine safe_bind (safe_enter hb) fun _ mid hl ↦ ?_
  obtain ⟨b, rfl⟩ := hl.enter
  refine safe_bind (hbody b) fun _ _ _ ↦ ?_
  exact safe_updateRest (fun _ ↦ rfl) rfl rfl (fun hfit ↦ hfit.nodes) (fun hfit ↦ hfit.pipes)
    fun hfit ↦ hfit.influences

end Engine

end HeaderFlow
