import HeaderFlow.Proofs.Network.ProbeAwareness

/-!
# Probes while flows spread

Only flows at rules lose their headers unannounced, and no probe knows anything of them. A flow at a
probe is forgotten before it goes, and looked at anew when its headers change. So **every step by
which flows arrive, change and go keeps what is known of probes** (`Engine.Minds`), also where it is
broken off.

A flow that is about to be told, or about to be dropped, is left out of account until that has
happened. Within such a stretch no visit is entered, so nothing is broken off there.

## Unknown flows

`U` is the set of flows of which no probe knows anything. A computation may be asked to keep away
from them, and in return it may do what it likes with their headers (`minds_updateFlow`). A flow
that has just come out of a pipe is in `U` until its node is known not to be a probe, or until the
probe is told (`greets_takeIn`); a flow at a rule may be put into `U` at any time, because rules
note nothing.

The recursion is the one of the engine: arriving and looking at a flow anew are parameters, of which
`Greets` and `Minds` are assumed, and both are shown for every room in the end.
-/

namespace HeaderFlow

open Engine

variable {α β : Type} {net net' : Network} {S : Set NodeKey} {U V V' : Set Handle} {h g : Handle}
  {f : Flow} {n m : Node} {key : NodeKey} {B : Network → Prop}

namespace Engine

/-! ### Computations that keep probes informed -/

/-- The computation keeps what is known of probes, also where it is broken off. Of flows in `U` no
probe learns. -/
def Minds (S : Set NodeKey) (U V : Set Handle) (x : Engine α) : Prop :=
  ∀ net, net.Minded S ∅ U V → Ends x net (Network.Minded S ∅ ∅ V) fun _ ↦ Network.Minded S ∅ U V

variable {x : Engine α} {k : α → Engine β} {arrive : NodeKey → Handle → Engine Unit}
  {refresh : Handle → Option Pattern → Engine Unit}

/-- What is kept, in a form in which a halt and the end are told apart. -/
theorem Minds.ends (hx : Minds S ∅ V x) (hM : net.Minded S ∅ ∅ V) :
    Ends x net (Network.Minded ∅ ∅ ∅ V) fun _ ↦ Network.Minded S ∅ ∅ V :=
  (hx net hM).mono (fun _ hend ↦ hend.awaken) fun _ _ hend ↦ hend

theorem minds_pure {a : α} : Minds S U V (pure a) := fun _ hM ↦ ends_pure.2 hM

/-- A sequence keeps what its parts keep. -/
theorem Minds.bind (hx : Minds S U V x) (hk : ∀ a, Minds S U V (k a)) :
    Minds S U V (x >>= k) := fun net hM ↦
  (hx net hM).bind fun a mid hmid ↦ hk a mid hmid

/-- A walk along a list keeps what its steps keep. -/
theorem Minds.forM {body : α → Engine Unit} (hbody : ∀ a, Minds S U V (body a)) (l : List α) :
    Minds S U V (l.forM body) := fun _ hM ↦ Ends.forM_of hM fun a _ mid hmid ↦ hbody a mid hmid

/-- **What leaves the faces alone is of no account to probes.** -/
theorem Aside.minds (hx : Aside x) : Minds S U V x := fun _ hM ↦
  (hx.ends fun _ hface ↦ hM.of_face hface).mono (fun _ hend ↦ hend.settle) fun _ _ hend ↦ hend

theorem minds_network : Minds S U V network := fun _ hM _ ↦ hM

theorem minds_ask (q : Network → Checked α) : Minds S U V (ask q) := fun net hM ↦ by
  rw [← bind_pure (ask q)]
  exact ends_ask_bind.2 fun _ _ ↦ ends_pure.2 hM

theorem minds_check (c : Checked α) : Minds S U V (check c) := minds_ask _

theorem minds_node (key : NodeKey) : Minds S U V (node key) := minds_ask _

theorem minds_flow (h : Handle) : Minds S U V (flow h) := minds_ask _

theorem minds_pipe (h : Handle) : Minds S U V (pipe h) := minds_ask _

theorem minds_flow? (h : Handle) : Minds S U V (flow? h) := minds_network.bind fun _ ↦ minds_pure

theorem minds_pipe? (h : Handle) : Minds S U V (pipe? h) := minds_network.bind fun _ ↦ minds_pure

theorem minds_event : Minds S U V event := minds_network.bind fun _ ↦ minds_pure

theorem minds_room : Minds S U V room := minds_network.bind fun _ ↦ minds_pure

theorem minds_report (r : Report) : Minds S U V (report r) := fun _ hM _ ↦ hM

/-- An update of the whole network has to keep what is known by itself. -/
theorem minds_update {e : Network → Network}
    (he : ∀ net, net.Minded S ∅ U V → (e net).Minded S ∅ U V) :
    Minds S U V (update e) := fun net hM ↦ ends_update.2 (he net hM)

/-- A flow that no probe knows anything of may lose its headers. -/
theorem minds_updateFlow {h : Handle} {e : Flow → Flow} (he : ∀ f, (e f).way = f.way)
    (hh : h ∈ U ∨ ∀ f, (e f).processed = f.processed) : Minds S U V (updateFlow h e) :=
  minds_update fun _ hM ↦ hM.withFlow he subset_rfl (.inr hh)

theorem minds_visit {body : Engine Unit} (hbody : Minds S ∅ V body) : Minds S ∅ V (visit body) := by
  intro net hM
  have hbegin : Network.Minded S ∅ ∅ V { net with budget := net.budget.count } := hM.of_face rfl
  exact ends_visit (fun _ ↦ hbegin) fun _ ↦ (hbody _ hbegin).weaken fun _ _ hend ↦ hend.of_face rfl

theorem minds_tooDeep : Minds S ∅ V (enter >>= fun _ ↦ tooDeep) := fun _ hM ↦
  Ends.bind (Q := fun _ ↦ Network.Minded S ∅ ∅ V) (ends_enter (fun _ ↦ hM.of_face rfl) fun _ ↦
    hM.of_face rfl) fun _ _ hmid ↦ ends_tooDeep hmid

/-! ### Dropping flows -/

/-- **A flow is forgotten when its children are taken from it.** It is left out of account from then
on, or is at no probe. -/
theorem ends_detachChildren (hM : net.Minded S ∅ U V) (hf : net.flows.find? h = some f)
    (hV : V ⊆ V') (hh : h ∈ V' ∨ h ∈ U) : Ends (detachChildren h f) net B fun _ net' ↦
      net'.Minded S ∅ (insert h U) V' ∧ Dwindles net.flows net'.flows := by
  rw [detachChildren, ends_updateFlow_bind, ends_network_bind]
  have hmid : Network.Minded S ∅ U V (withFlow net h fun f ↦ { f with children := [] }) :=
    hM.withFlow (fun _ ↦ rfl) subset_rfl (.inr (.inr fun _ ↦ rfl))
  have hself : (withFlow net h fun f ↦ { f with children := [] }).flows.find? h =
      some { f with children := [] } := Arena.find?_modify_self hf
  have hdwindles : Dwindles net.flows (withFlow net h fun f ↦ { f with children := [] }).flows :=
    .modify fun f ↦ ⟨[], List.nil_sublist _, rfl⟩
  dsimp only
  split
  · refine (steady_notify _ _ _).ends fun _ _ hl ↦ ⟨hmid.notify_gone hself hV hh hl, ?_⟩
    rw [(quiet_notify hmid.nodup hl).flows]
    exact hdwindles
  · rename_i hplain
    refine ends_pure.2 ⟨(hmid.unknown hself fun n hn hkey ↦ ?_).mono subset_rfl subset_rfl hV,
      hdwindles⟩
    rw [show f.node = n.key from hkey.symm, Network.nodeAt?_of_mem hmid.nodup hn] at hplain
    simpa using hplain

/-- **A flow that no probe knows anything of may be discarded.** -/
theorem ends_discardFlow (hM : net.Minded S ∅ (insert h U) V') (hV : V' ⊆ insert h V)
    (hh : ∀ f, net.flows.find? h = some f → f.node = key) :
    Ends (discardFlow h key) net B fun _ net' ↦
      net'.Minded S ∅ U V ∧ Dwindles net.flows net'.flows := by
  rw [discardFlow, ends_update_bind, updateNode, ends_update]
  exact ⟨hM.discard hV hh, .erase _ _⟩

/-- **A tree is dropped from its top**: each flow is forgotten, then what came from it goes, then
the flow. -/
theorem ends_dropTree (fuel : Nat) (h : Handle) (hM : net.Minded S ∅ U V) :
    Ends (dropTree fuel h) net B fun _ net' ↦
      net'.Minded S ∅ U V ∧ Dwindles net.flows net'.flows := by
  induction fuel generalizing net h U V with
  | zero => exact ends_pure.2 ⟨hM, .refl _⟩
  | succ fuel ih =>
    rw [dropTree, ends_flow?_bind]
    cases hf : net.flows.find? h with
    | none => exact ends_pure.2 ⟨hM, .refl _⟩
    | some f =>
      -- the flow stays listed until what came from it is gone, and is left out of account so long
      refine (ends_detachChildren hM hf (Set.subset_insert h V) (.inl (Set.mem_insert h V))).bind
        fun _ mid hmid ↦ ?_
      refine Ends.bind (Ends.forM_of
        (I := fun mid ↦ mid.Minded S ∅ (insert h U) (insert h V) ∧
          Dwindles net.flows mid.flows) hmid
        fun c _ mid hmid ↦ (ih c hmid.1).weaken fun _ _ hend ↦ ⟨hend.1, hmid.2.trans hend.2⟩)
          fun _ mid' hmid' ↦ ?_
      refine (ends_discardFlow hmid'.1 subset_rfl fun k hk ↦ ?_).weaken fun _ _ hend ↦
        ⟨hend.1, hmid'.2.trans hend.2⟩
      obtain ⟨f₀, hf₀, hway⟩ := hmid'.2.way hk
      obtain rfl := Option.some.inj (hf.symm.trans hf₀)
      exact Flow.node_eq hway

theorem minds_dropSubtree (h : Handle) : Minds S U V (dropSubtree h) := fun net hM ↦ by
  rw [dropSubtree, ends_network_bind]
  exact (ends_dropTree _ h hM).weaken fun _ _ hend ↦ hend.1

/-- A flow that is to stay is at no probe. -/
theorem minds_dropBelow (hh : h ∈ U) : Minds S U V (dropBelow h) := fun net hM ↦ by
  rw [dropBelow, ends_flow?_bind]
  cases hf : net.flows.find? h with
  | none => exact ends_pure.2 hM
  | some f =>
    refine (ends_detachChildren hM hf subset_rfl (.inr hh)).bind fun _ mid hmid ↦ ?_
    exact Minds.forM minds_dropSubtree _ mid
      (hmid.1.mono subset_rfl (Set.subset_insert h U) subset_rfl)

/-- A flow that is removed is taken from the one it came from, and then dropped with its tree. -/
theorem minds_removeFlow (h : Handle) : Minds S U V (removeFlow h) := by
  refine (minds_flow? h).bind fun o ↦ ?_
  split
  · refine Minds.bind ?_ fun _ ↦ minds_dropSubtree h
    rw [unlink]
    split
    · exact minds_updateFlow (fun _ ↦ rfl) (.inr fun _ ↦ rfl)
    · exact minds_pure
  · exact minds_pure

/-! ### Arriving -/

/-- The flow is there, at the node with the key, and has not been listed unless it is at a source.
No flow came from it yet. -/
structure Arrived (key : NodeKey) (h : Handle) (net : Network) : Prop where
  flow : ∃ f, net.flows.find? h = some f ∧ f.node = key
  new : ∀ n ∈ net.nodes, n.key = key → n.role ≠ .source → h ∉ n.flows
  childless : ∀ g k, net.flows.find? g = some k → k.parent ≠ some h

/-- What is asked of a way of taking a flow that has just arrived: **no probe knows of it yet**. -/
def Greets (S : Set NodeKey) (V : Set Handle) (arrive : NodeKey → Handle → Engine Unit) : Prop :=
  ∀ key h net, net.Minded S ∅ {h} V → Arrived key h net →
    Ends (arrive key h) net (Network.Minded S ∅ ∅ V) fun _ ↦ Network.Minded S ∅ ∅ V

/-- Listing a flow that has just arrived leaves it unknown, and where it is. -/
theorem ends_register (hM : net.Minded S ∅ U V) (hf : net.flows.find? h = some f)
    (hnode : f.node = key) (hnew : ∀ n ∈ net.nodes, n.key = key → h ∉ n.flows)
    (hchildless : ∀ g k, net.flows.find? g = some k → k.parent ≠ some h)
    (hplace : h ∈ V ∨ ∀ n ∈ net.nodes, n.key = key → n.probe? = none) :
    Ends (register key h) net B fun _ net' ↦
      net'.Minded S ∅ U V ∧ ∃ f', net'.flows.find? h = some f' ∧ f'.node = key := by
  have hmid := hM.enlist hf hnode hnew hchildless hplace
  rw [register, updateNode, ends_update_bind, ends_flow_bind]
  intro f' hf'
  obtain rfl := Option.some.inj (hf.symm.trans hf')
  split
  · rename_i p hp
    rw [updateFlow, ends_update]
    refine ⟨hmid.withFlow (fun _ ↦ rfl) subset_rfl (.inr (.inr fun _ ↦ rfl)), ?_⟩
    rw [Arena.find?_modify]
    split
    · rename_i hhp
      exact ⟨{ f with children := f.children ++ [h] }, by rw [← hhp, hf]; rfl, hnode⟩
    · exact ⟨f, hf, hnode⟩
  · exact ends_pure.2 ⟨hmid, f, hf, hnode⟩

/-- What a flow sends may change if no probe knows anything of it. -/
theorem minds_recompute (key : NodeKey) (hh : h ∈ U) : Minds S U V (recompute key h) := by
  refine (minds_node key).bind fun n ↦ ?_
  split
  · refine (minds_flow h).bind fun f ↦ (aside_subtractInfluences _ _ _).minds.bind fun left ↦
      (minds_check _).bind fun left ↦ ?_
    split
    · exact (minds_updateFlow (by exact fun _ ↦ rfl) (.inl hh)).bind fun _ ↦ minds_pure
    · refine (minds_check _).bind fun _ ↦ ?_
      exact (minds_updateFlow (by exact fun _ ↦ rfl) (.inl hh)).bind fun _ ↦ minds_pure
  · exact minds_pure

theorem minds_markLooped (key : NodeKey) (h : Handle) (first : NodeId) :
    Minds S U V (markLooped key h first) :=
  (minds_updateFlow (by exact fun _ ↦ rfl) (.inr (by exact fun _ ↦ rfl))).bind fun _ ↦
    (minds_node key).bind fun _ ↦ minds_event.bind fun _ ↦ minds_report _

/-- **A flow that sends is known**, so the one that comes from it did not come from nowhere. -/
theorem ends_sendHeaders (harrive : Greets S V arrive) (key : NodeKey) (fwd : Handle) (side : Pipe)
    (measure : Measure) (f : Flow) (processed : Space) (hM : net.Minded S ∅ ∅ V)
    (hknown : net.flows.Knows h) :
    Ends (sendHeaders arrive key h fwd side measure f processed) net (Network.Minded S ∅ ∅ V)
      fun _ ↦ Network.Minded S ∅ ∅ V := by
  rw [sendHeaders, ends_check_bind]
  intro out _
  split
  · exact ends_pure.2 hM
  · rw [ends_pipe_bind]
    intro back _
    refine .steady_bind (tame_reportLost _ _ _ _ _ _ _).steady fun _ mid hl ↦ ?_
    have hface := (aside_reportLost _ _ _ _ _ _ _).leads hl
    have hmid := hM.of_face hface
    have hparent : ∀ p, some h = some p → mid.flows.Knows p := by
      rintro _ ⟨⟩
      exact Network.flows_of_face hface ▸ hknown
    -- the flow that sends is known, so no flow can have come from the new one
    rw [ends_insertFlow_bind]
    refine harrive _ _ _ (hmid.insert hparent)
      ⟨⟨_, Arena.find?_insert_self hmid.valid, rfl⟩, fun n hn _ _ hmem ↦ ?_, hmid.childless hparent⟩
    obtain ⟨f', hf', -⟩ := (hmid.nodes n hn).roster _ hmem
    exact absurd ((Arena.find?_nextHandle hmid.valid).symm.trans hf') (by simp)

theorem minds_send (harrive : Greets S V arrive) (key : NodeKey) (h fwd : Handle)
    (measure : Measure) : Minds S ∅ V (send arrive key h fwd measure) := by
  refine (minds_pipe? fwd).bind fun o ↦ ?_
  split
  · refine (aside_blocked _ _ _).minds.bind fun blocked ↦ ?_
    split
    · exact minds_pure
    · intro net hM
      rw [ends_flow_bind]
      intro f hf
      split
      · exact ends_sendHeaders harrive _ _ _ _ _ _ hM (.inr ⟨f, hf⟩)
      · exact ends_pure.2 hM
  · exact minds_pure

theorem minds_sendAll (harrive : Greets S V arrive) (key : NodeKey) (h : Handle) :
    Minds S ∅ V (sendAll arrive key h) :=
  (minds_node key).bind fun _ ↦ .forM (fun fwd ↦ minds_send harrive key h fwd .flow) _

/-- **A flow is taken in.** At a rule no probe learns of it, and a probe learns of it when it has
its headers. -/
theorem greets_takeIn (harrive : Greets S V arrive) : Greets S V (takeIn arrive) := by
  rintro key h net hM ⟨⟨f, hf, hnode⟩, hnew, hchildless⟩
  rw [takeIn, ends_node_bind]
  intro n hn
  obtain ⟨hmem, hkey⟩ := nodeAt?_eq_some hn
  have hone : ∀ m ∈ net.nodes, m.key = key → m = n := fun m hm hmkey ↦
    eq_of_key_eq hM.nodup hm hmem (hmkey.trans hkey.symm)
  have hlisted : n.role ≠ .source →
      ∀ m ∈ net.nodes, m.key = key → h ∉ m.flows := fun hrole m hm hmkey ↦
    hnew m hm hmkey (hone m hm hmkey ▸ hrole)
  split
  · rename_i r hrole
    have hplain : ∀ m ∈ net.nodes, m.key = key → m.probe? = none := fun m hm hmkey ↦ by
      rw [hone m hm hmkey, Node.probe?, hrole]
    refine (ends_register hM hf hnode (hlisted (by simp [hrole])) hchildless (.inr hplain)).bind
      fun _ mid hend ↦ ?_
    have hmid := hend.1
    rw [ends_ask_bind]
    intro back _
    split
    · exact (minds_markLooped (U := {h}) _ _ _ mid hmid).weaken fun _ _ hend ↦ hend.settle
    · refine (minds_recompute key (Set.mem_singleton h) mid hmid).bind fun alive mid' hmid' ↦ ?_
      split
      · exact minds_sendAll harrive key h mid' hmid'.settle
      · exact ends_pure.2 hmid'.settle
  · rename_i p hrole
    -- the flow is listed before the probe is told of it, so it is left out of account in between
    have hwait := hM.mono subset_rfl subset_rfl (Set.subset_insert h V)
    refine (ends_register hwait hf hnode (hlisted (by simp [hrole])) hchildless
      (.inl (Set.mem_insert h V))).bind fun _ mid hend ↦ ?_
    obtain ⟨hmid, f', hf', hnode'⟩ := hend
    rw [ends_updateFlow_bind]
    have hmid' : Network.Minded S ∅ {h} (insert h V)
        (withFlow mid h fun f ↦ { f with processed := some f.input }) :=
      hmid.withFlow (fun _ ↦ rfl) subset_rfl (.inr (.inl (Set.mem_singleton h)))
    refine (steady_notify _ _ _).ends fun _ _ hl ↦ ?_
    subst hnode'
    exact hmid'.settle.notify_arrived (Arena.find?_modify_self hf') hl
  · exact minds_sendAll harrive key h net hM.settle

/-- A visit does not get in the way: where it halts, no probe knows anything of the flow. -/
theorem Greets.visit {body : NodeKey → Handle → Engine Unit} (hbody : Greets S V body) :
    Greets S V fun key h ↦ visit (body key h) := by
  intro key h net hM hA
  have hbegin : Network.Minded S ∅ {h} V { net with budget := net.budget.count } := hM.of_face rfl
  exact ends_visit (fun _ ↦ hbegin.settle) fun _ ↦
    (hbody key h _ hbegin ⟨hA.flow, hA.new, hA.childless⟩).weaken fun _ _ hend ↦ hend.of_face rfl

/-- **However much room there is for visits, arriving flows are made known as they should be.** -/
theorem greets_arriveWithin : ∀ room : Nat, Greets S V (arriveWithin room)
  | 0 => fun _ _ net hM _ ↦ minds_tooDeep net hM.settle
  | room + 1 => (greets_takeIn (greets_arriveWithin room)).visit

theorem greets_arrive : Greets S V Engine.arrive := fun key h net hM hA ↦ by
  rw [Engine.arrive, ends_room_bind]
  exact greets_arriveWithin _ key h net hM hA

/-! ### Refreshing -/

theorem minds_pushLoss (hrefresh : ∀ h loss, Minds S ∅ V (refresh h loss)) (loss : Pattern)
    (child : Handle) : Minds S ∅ V (pushLoss refresh loss child) := by
  refine (minds_flow? child).bind fun o ↦ ?_
  split
  · split
    · refine (minds_pipe? _).bind fun o ↦ ?_
      split
      · refine (minds_check _).bind fun o ↦ ?_
        split
        · refine (minds_check _).bind fun _ ↦ ?_
          exact (minds_updateFlow (by exact fun _ ↦ rfl) (.inr (by exact fun _ ↦ rfl))).bind fun _ ↦
            hrefresh _ _
        · exact minds_pure
      · exact minds_pure
    · exact minds_pure
  · exact minds_pure

theorem minds_renewChild (hrefresh : ∀ h loss, Minds S ∅ V (refresh h loss)) (processed : Space)
    (child : Handle) : Minds S ∅ V (renewChild refresh processed child) := by
  refine (minds_flow? child).bind fun o ↦ ?_
  split
  · split
    · refine (minds_pipe? _).bind fun o ↦ ?_
      split
      · refine (minds_check _).bind fun out ↦ ?_
        split
        · exact (minds_removeFlow _).bind fun _ ↦ minds_pure
        · refine (minds_updateFlow (by exact fun _ ↦ rfl) (.inr (by exact fun _ ↦ rfl))).bind
            fun _ ↦ ?_
          exact (hrefresh _ _).bind fun _ ↦ minds_pure
      · exact (minds_removeFlow _).bind fun _ ↦ minds_pure
    · exact minds_pure
  · exact minds_pure

theorem minds_renewChildren (hrefresh : ∀ h loss, Minds S ∅ V (refresh h loss))
    (processed : Space) :
    ∀ cs : List Handle, Minds S ∅ V (renewChildren refresh processed cs)
  | [] => minds_pure
  | c :: cs => (minds_renewChild hrefresh processed c).bind fun _ ↦
      (minds_renewChildren hrefresh processed cs).bind fun _ ↦ minds_pure

theorem minds_passOn (harrive : Greets S V arrive)
    (hrefresh : ∀ h loss, Minds S ∅ V (refresh h loss)) (h : Handle) (loss : Option Pattern) :
    Minds S ∅ V (passOn arrive refresh h loss) := by
  refine (minds_flow h).bind fun f ↦ ?_
  split
  · exact .forM (minds_pushLoss hrefresh _) _
  · split
    · refine (minds_renewChildren hrefresh _ _).bind fun used ↦ (minds_node _).bind fun n ↦
        .forM (fun fwd ↦ ?_) _
      split
      · exact minds_send harrive _ _ _ _
      · exact minds_pure
    · exact minds_pure

/-- Going on with a flow of which no probe knows anything. -/
theorem ends_goOn (harrive : Greets S V arrive) (hrefresh : ∀ h loss, Minds S ∅ V (refresh h loss))
    (loss : Option Pattern) (alive : Bool) (hM : net.Minded S ∅ {h} V) :
    Ends (goOn arrive refresh h loss alive) net (Network.Minded S ∅ ∅ V) fun _ ↦
      Network.Minded S ∅ ∅ V := by
  rw [goOn]
  split
  · exact minds_passOn harrive hrefresh h loss net hM.settle
  · refine (minds_dropBelow (Set.mem_singleton h) net hM).bind fun _ mid hmid ↦ ?_
    refine Ends.weaken (Q := fun _ ↦ Network.Minded S ∅ {h} V) ?_ fun _ _ hend ↦ hend.settle
    exact ((minds_flow h).bind fun _ ↦
      minds_updateFlow (by exact fun _ ↦ rfl) (.inl (Set.mem_singleton h))) mid hmid

theorem minds_lose {s : Space} {loss : Pattern} (hh : h ∈ U) : Minds S U V (lose h s loss) :=
  (minds_check _).bind fun _ ↦ (minds_updateFlow (by exact fun _ ↦ rfl) (.inl hh)).bind fun _ ↦
    minds_pure

/-- **A flow at a rule is looked at anew**: its headers change without any probe being told. -/
theorem ends_reconsiderAtRule (harrive : Greets S V arrive)
    (hrefresh : ∀ h loss, Minds S ∅ V (refresh h loss)) (f : Flow) (r : Rule)
    (loss : Option Pattern) (hM : net.Minded S ∅ {h} V) :
    Ends (reconsiderAtRule arrive refresh h f r loss) net (Network.Minded S ∅ ∅ V) fun _ ↦
      Network.Minded S ∅ ∅ V := by
  unfold reconsiderAtRule
  split
  · exact ends_pure.2 hM.settle
  · split
    · exact (minds_recompute (U := {h}) f.node (Set.mem_singleton h) net hM).bind
        fun alive mid hmid ↦
        ends_goOn harrive hrefresh none alive hmid
    · split
      · exact (minds_lose (U := {h}) (Set.mem_singleton h) net hM).bind fun alive mid hmid ↦
          ends_goOn harrive hrefresh _ alive hmid
      · exact ends_pure.2 hM.settle

/-- At a probe the headers of a flow change, and where it is does not. It is left out of account
until it is told. -/
theorem ends_reconsiderAtProbe (hM : net.Minded S ∅ ∅ V) (hf : net.flows.find? h = some f)
    (loss : Option Pattern) :
    Ends (reconsiderAtProbe h f loss) net B fun _ net' ↦
      net'.Minded S {h} ∅ (insert h V) ∧ ∃ f', net'.flows.find? h = some f' ∧ f'.node = f.node := by
  have hset : ∀ e : Flow → Flow, (∀ f, (e f).way = f.way) →
      (withFlow net h e).Minded S {h} ∅ (insert h V) ∧
      ∃ f', (withFlow net h e).flows.find? h = some f' ∧ f'.node = f.node := fun e he ↦
    ⟨hM.withFlow he (Set.subset_insert h V) (.inl ⟨Set.mem_singleton h, Set.mem_insert h V⟩), e f,
      Arena.find?_modify_self hf, Flow.node_eq (he f)⟩
  unfold reconsiderAtProbe
  split
  · rename_i loss' processed _
    refine (Tame.discard (v := false) (tame_lose h processed loss')).steady.ends fun _ net' hl ↦ ?_
    obtain ⟨alive, hl⟩ := hl.discard
    rw [lose, leads_check_bind] at hl
    obtain ⟨left, -, hl⟩ := hl
    rw [leads_updateFlow_bind, leads_pure] at hl
    exact hl.2 ▸ hset _ fun _ ↦ rfl
  · exact ends_pure.2 ⟨hM.mono (Set.empty_subset _) subset_rfl (Set.subset_insert h V), f, hf, rfl⟩
  · rw [updateFlow, ends_update]
    exact hset _ fun _ ↦ rfl

theorem minds_reconsider (harrive : Greets S V arrive)
    (hrefresh : ∀ h loss, Minds S ∅ V (refresh h loss)) (h : Handle) (loss : Option Pattern) :
    Minds S ∅ V (reconsider arrive refresh h loss) := fun net hM ↦ by
  rw [reconsider, ends_flow?_bind]
  cases hf : net.flows.find? h with
  | none => exact ends_pure.2 hM
  | some f =>
    dsimp only
    rw [ends_node_bind]
    intro n hn
    split
    · rename_i r hrole
      have hunknown : net.Minded S ∅ (insert h ∅) V := hM.unknown hf fun m hm hkey ↦ by
        obtain rfl := Option.some.inj (hn.symm.trans (hkey ▸ Network.nodeAt?_of_mem hM.nodup hm))
        rw [Node.probe?, hrole]
      exact ends_reconsiderAtRule harrive hrefresh f r loss
        (hunknown.mono subset_rfl (Set.singleton_subset_iff.2 (Set.mem_insert h ∅)) subset_rfl)
    · refine (ends_reconsiderAtProbe hM hf loss).bind fun _ mid hend ↦ ?_
      obtain ⟨hmid, f', hf', hnode⟩ := hend
      exact (steady_notify _ _ _).ends fun _ _ hl ↦ hmid.notify_changed hf' (hnode ▸ hl)
    · exact ends_pure.2 hM

/-- **However much room there is for visits, looking at a flow anew keeps what is known of
probes.** -/
theorem minds_refreshWithin : ∀ (room : Nat) (h : Handle) (loss : Option Pattern),
    Minds S ∅ V (refreshWithin room h loss)
  | 0, _, _ => minds_tooDeep
  | room + 1, h, loss =>
    minds_visit (minds_reconsider (greets_arriveWithin room) (minds_refreshWithin room) h loss)

theorem minds_refresh (h : Handle) (loss : Option Pattern) : Minds S ∅ V (Engine.refresh h loss) :=
  minds_room.bind fun _ ↦ minds_refreshWithin _ h loss

theorem minds_sendFlows (key : NodeKey) (fwd : Handle) : Minds S ∅ V (sendFlows key fwd) := by
  refine (minds_node key).bind fun n ↦ .forM (fun h ↦ (minds_flow? h).bind fun o ↦ ?_) _
  split
  · exact minds_send greets_arrive _ _ _ _
  · exact minds_pure

theorem minds_pull (key : NodeKey) : Minds S ∅ V (pull key) := by
  refine (minds_node key).bind fun n ↦ .forM (fun back ↦ (minds_pipe? back).bind fun o ↦ ?_) _
  split
  · exact (minds_pipe _).bind fun _ ↦ minds_sendFlows _ _
  · exact minds_pure

theorem minds_refreshFlows (key : NodeKey) (ports : PortSet) (loss : Option Pattern) :
    Minds S ∅ V (refreshFlows key ports loss) := by
  refine (minds_node key).bind fun n ↦ .forM (fun h ↦ (minds_flow? h).bind fun o ↦ ?_) _
  split
  · exact minds_refresh h loss
  · exact minds_pure

end Engine

end HeaderFlow
