import HeaderFlow.Proofs.Network.Enrolment

/-!
# The books through propagation

Every step of propagation keeps the books (`Engine.Accounts`). Two of them need something for that.
**A flow gets headers to send only where it is known to be listed**, which it is when it was just
registered, and when it was found on a list or among the children of another flow
(`Engine.Revises`). A flow that arrives has to be there, at the node where it arrives
(`Engine.Receives`).

What is asked on the way may have no answer, and then the change is halted. But nothing that is
asked is about counts, apart from what a probe is told, and a solvent probe is not short of flows to
give up.

## Why halts are part of it

The books are about networks that any changes led to, including changes that were broken off in the
middle. So `Accounts` is a statement about every place at which a computation may stop: at its end,
and at each halt on the way (`Balanced`). It is closed under `>>=` and `forM`, and what leaves the
faces of flows alone has it for nothing (`Aside.accounts`). Hence one line for most of the steps,
and an argument for those few that write to a flow.

## The set of listed flows

`R` is a set of flows that are known to be listed at that point. It grows when a flow is registered
(`stops_register`), and a computation that needs a larger set than it is given asks for it by
`Accounts.enrol`. The recursion of arriving and refreshing is over the room that is left for visits,
as in the engine itself.
-/

namespace HeaderFlow.Engine

open Checked

variable {α β : Type} {net net' : Network} {R R' : Set Handle} {h g : Handle} {f : Flow} {n : Node}
  {key : NodeKey} {p : Progress} {x : Engine α} {k : α → Engine β}

/-! ### Computations that keep the books -/

/-- Where a change is halted. -/
def Balanced (R : Set Handle) : Halt → Progress → Prop
  | .overrun _, p => p.network.Books R
  | .fault f, _ => f.NotCount

/-- **The computation keeps the books**, wherever it is halted, and is not halted because a count is
short. -/
def Accounts (R : Set Handle) (x : Engine α) : Prop :=
  ∀ p, p.network.Books R → Stops x p (Balanced R) fun _ p' ↦ p'.network.Books R

/-- Fewer flows may be known to be listed afterwards. -/
theorem stops_mono {Q : α → Progress → Prop} (hx : Stops x p (Balanced R) Q) (hR : R' ⊆ R)
    (hQ : ∀ a p', Q a p' → p'.network.Books R) :
    Stops x p (Balanced R') fun _ p' ↦ p'.network.Books R' := by
  refine hx.mono (fun e p' he ↦ ?_) fun a p' hend ↦ (hQ a p' hend).mono hR
  cases e with
  | overrun o => exact Network.Books.mono he hR
  | fault f => exact he

/-- A computation that needs to know of more flows that they are listed. -/
theorem Accounts.enrol (hx : Accounts (R ∪ R') x) (hB : p.network.Books R)
    (hR : ∀ h ∈ R', p.network.Enrolled h) : Stops x p (Balanced R) fun _ p' ↦ p'.network.Books R :=
  stops_mono (hx p (hB.enrol hR)) Set.subset_union_left fun _ _ hend ↦ hend

theorem accounts_pure {a : α} : Accounts R (pure a) := fun _ hB ↦ hB

/-- Computations one after the other keep the books if each of them does. -/
theorem Accounts.bind (hx : Accounts R x) (hk : ∀ a, Accounts R (k a)) :
    Accounts R (x >>= k) := fun p hB ↦
  (hx p hB).bind fun a p' hB' ↦ hk a p' hB'

/-- A loop keeps the books if its body does, by induction on the list. -/
theorem accounts_forM {body : α → Engine Unit} : ∀ {l : List α}, (∀ a ∈ l, Accounts R (body a)) →
    Accounts R (l.forM body)
  | [], _ => accounts_pure
  | a :: l, hbody => Accounts.bind (k := fun _ ↦ l.forM body) (hbody a List.mem_cons_self) fun _ ↦
      accounts_forM fun b hb ↦ hbody b (List.mem_cons_of_mem _ hb)

theorem Accounts.discard (hx : Accounts R x) : Accounts R (discard x) := by
  change Accounts R ((fun _ ↦ ()) <$> x)
  rw [map_eq_pure_bind]
  exact hx.bind fun _ ↦ accounts_pure

/-- **What leaves the faces alone keeps the books.** -/
theorem Aside.accounts (hx : Aside x) : Accounts R x := fun p hB ↦ (hx p).mono (fun e _ hend ↦ by
  cases e with
  | overrun o => exact hB.of_face hend.1
  | fault f => exact hend.2 f rfl) fun _ _ hface ↦ hB.of_face hface

theorem accounts_network : Accounts R network := fun _ hB ↦ hB

/-- **A question that is not about counts.** -/
theorem accounts_ask {q : Network → Checked α} (hq : ∀ net, Faults Fault.NotCount (q net)) :
    Accounts R (ask q) := by
  intro p hB
  rw [← bind_pure (ask q)]
  exact Stops.ask_bind (fun f hf ↦ hq _ f hf) fun _ _ ↦ hB

/-- A check that fails halts the change, and is not about counts. -/
theorem accounts_check {c : Checked α} (hc : Faults Fault.NotCount c) : Accounts R (check c) :=
  accounts_ask fun _ ↦ hc

theorem accounts_node (key : NodeKey) : Accounts R (node key) :=
  accounts_ask fun net ↦ net.faults_node key

theorem accounts_flow (h : Handle) : Accounts R (flow h) :=
  accounts_ask fun net ↦ net.flows.faults_get h

theorem accounts_pipe (h : Handle) : Accounts R (pipe h) :=
  accounts_ask fun net ↦ net.pipes.faults_get h

theorem accounts_flow? (h : Handle) : Accounts R (flow? h) :=
  accounts_network.bind fun _ ↦ accounts_pure

theorem accounts_pipe? (h : Handle) : Accounts R (pipe? h) :=
  accounts_network.bind fun _ ↦ accounts_pure

theorem accounts_event : Accounts R event := accounts_network.bind fun _ ↦ accounts_pure

theorem accounts_room : Accounts R room := accounts_network.bind fun _ ↦ accounts_pure

theorem accounts_report (r : Report) : Accounts R (report r) := fun _ hB ↦ hB

/-- An update of the whole network has to keep the books by itself. -/
theorem accounts_update {e : Network → Network} (he : ∀ net, net.Books R → (e net).Books R) :
    Accounts R (update e) := fun p hB ↦ he p.network hB

/-- **A flow gets headers to send only if it is known to be listed.** -/
theorem accounts_updateFlow {e : Flow → Flow} (hnode : ∀ f, (e f).node = f.node)
    (hchildren : ∀ f, (e f).children ⊆ f.children)
    (hprocessed : h ∈ R ∨ ∀ f, f.processed = none → (e f).processed = none) :
    Accounts R (updateFlow h e) :=
  accounts_update fun _ hB ↦ hB.withFlow hnode (fun f _ _ hc ↦ .inl (hchildren f hc))
    (hprocessed.imp_left (hB.enrolled h))

/-- Storing a flow cannot halt. -/
theorem stops_insertFlow_bind {e : Handle → Flow} {k : Handle → Engine β}
    {B : Halt → Progress → Prop} {P : β → Progress → Prop} :
    Stops (insertFlow e >>= k) p B P ↔ Stops (k p.network.flows.nextHandle)
      { p with network := { p.network with
          flows := p.network.flows.insert (e p.network.flows.nextHandle) } } B P := Iff.rfl

/-- A node that was found is there. -/
theorem Accounts.node_bind {k : Node → Engine β} {Q : β → Progress → Prop}
    (hk : ∀ n ∈ p.network.nodes,
    n.key = key → Stops (k n) p (Balanced R) Q) : Stops (node key >>= k) p (Balanced R) Q := by
  refine Stops.ask_bind (fun f hf ↦ p.network.faults_node key f hf) fun n hn ↦ ?_
  rw [Network.node] at hn
  split at hn
  · rename_i m hm
    obtain rfl := Except.ok.inj hn
    obtain ⟨hmem, hkey⟩ := nodeAt?_eq_some hm
    exact hk m hmem hkey
  · cases hn

theorem Accounts.flow_bind {k : Flow → Engine β} {Q : β → Progress → Prop}
    (hk : ∀ f, p.network.flows.find? h = some f → Stops (k f) p (Balanced R) Q) :
    Stops (flow h >>= k) p (Balanced R) Q :=
  Stops.ask_bind (fun f hf ↦ p.network.flows.faults_get h f hf) fun f hf ↦ hk f (get_eq_ok.1 hf)

/-! ### Visits -/

/-- Entering a visit leaves all flows what they are. -/
theorem stops_enter_books (hB : p.network.Books R) : Stops enter p (Balanced R) fun _ p' ↦
    p'.network.Books R ∧ p'.network.flows = p.network.flows := by
  rw [enter, stops_network_bind, Budget.enter]
  change Stops (update _ >>= _) _ _ _
  rw [stops_update_bind]
  have hcount : Network.Books R { p.network with budget := p.network.budget.count } :=
    hB.of_face rfl
  cases p.network.budget.count.overrun? with
  | some o => exact hcount
  | none => exact ⟨hcount, rfl⟩

theorem accounts_visit {body : Engine Unit} (hbody : Accounts R body) :
    Accounts R (visit body) := fun _ hB ↦
  (stops_enter_books hB).bind fun _ _ hend ↦ (hbody _ hend.1).bind fun _ _ hend ↦ hend.of_face rfl

theorem accounts_tooDeep : Accounts R (enter >>= fun _ ↦ tooDeep) := fun _ hB ↦
  (stops_enter_books hB).bind fun _ _ hend ↦ hend.1

/-! ### Telling a probe -/

/-- **A probe is told of a flow**, and is solvent before and after. -/
theorem accounts_notify (key : NodeKey) (h : Handle) {change : Network → Checked FlowChange}
    (hchange : ∀ net, Faults Fault.NotCount (change net)) : Accounts R (notify key h change) := by
  intro p hB
  refine Accounts.node_bind fun n hn _ ↦ ?_
  split
  · rename_i q hq
    split
    · exact hB
    · have hsolvent := hB.solvent n hn q hq
      refine Stops.ask_bind (fun f hf ↦ hchange _ f hf) fun c _ ↦ ?_
      have hpays := hsolvent.update h c
      refine Stops.ask_bind (fun f hf ↦ hpays.faults f hf) fun ⟨q', t⟩ hq' ↦ ?_
      -- the count is right again before anything is reported
      have hset : (withNode p.network key fun n ↦ { n with role := .probe q' }).Books R :=
        hB.setProbe (hpays.solvent q' t hq')
      cases t <;> exact hset
  · exact hB

theorem accounts_gone (key : NodeKey) (h : Handle) : Accounts R (notify key h gone) :=
  accounts_notify key h fun _ ↦ faults_ok

theorem accounts_arrived (key : NodeKey) (h : Handle) : Accounts R (notify key h (arrived h)) :=
  accounts_notify key h fun net ↦ (net.faults_chainOf h).map

theorem accounts_changed (key : NodeKey) (h : Handle) : Accounts R (notify key h (changed h)) :=
  accounts_notify key h fun net ↦ (net.faults_chainOf h).map

/-! ### Dropping flows -/

theorem accounts_detachChildren (h : Handle) (f : Flow) : Accounts R (detachChildren h f) := by
  refine Accounts.bind
    (accounts_updateFlow (fun _ ↦ rfl) (fun _ ↦ List.nil_subset _) (.inr fun _ ↦ id)) fun _ ↦ ?_
  refine accounts_network.bind fun net ↦ ?_
  dsimp only
  split
  · exact accounts_gone _ _
  · exact accounts_pure

theorem accounts_discardFlow (h : Handle) (key : NodeKey) :
    Accounts R (discardFlow h key) := fun _ hB ↦
  (hB.erase h).delist (by rw [Arena.find?_erase, if_pos rfl])

/-- The flows that came from a flow are dropped before the flow itself. -/
theorem accounts_dropTree : ∀ (fuel : Nat) (h : Handle), Accounts R (dropTree fuel h)
  | 0, _ => accounts_pure
  | fuel + 1, h => by
    refine (accounts_flow? h).bind fun o ↦ ?_
    split
    · exact (accounts_detachChildren h _).bind fun _ ↦
        (accounts_forM fun c _ ↦ accounts_dropTree fuel c).bind fun _ ↦ accounts_discardFlow h _
    · exact accounts_pure

theorem accounts_dropSubtree (h : Handle) : Accounts R (dropSubtree h) :=
  accounts_network.bind fun _ ↦ accounts_dropTree _ h

theorem accounts_dropBelow (h : Handle) : Accounts R (dropBelow h) := by
  refine (accounts_flow? h).bind fun o ↦ ?_
  split
  · exact (accounts_detachChildren h _).bind fun _ ↦ accounts_forM fun c _ ↦ accounts_dropSubtree c
  · exact accounts_pure

theorem accounts_removeFlow (h : Handle) : Accounts R (removeFlow h) := by
  refine (accounts_flow? h).bind fun o ↦ ?_
  split
  · refine Accounts.bind ?_ fun _ ↦ accounts_dropSubtree h
    rw [unlink]
    split
    · exact accounts_updateFlow (fun _ ↦ rfl) (fun _ ↦ List.filter_subset_self _) (.inr fun _ ↦ id)
    · exact accounts_pure
  · exact accounts_pure

/-! ### Arriving -/

/-- What is asked of a way of taking a flow that has just arrived: **it is there, at the node where
it arrives.** -/
def Receives (arrive : NodeKey → Handle → Engine Unit) : Prop :=
  ∀ (R : Set Handle) (key : NodeKey) (h : Handle) (f : Flow) (p : Progress), p.network.Books R →
    p.network.flows.find? h = some f → f.node = key →
      Stops (arrive key h) p (Balanced R) fun _ p' ↦ p'.network.Books R

/-- What is asked of a way of looking at a flow anew: **it is known to be listed.** -/
def Revises (refresh : Handle → Option Pattern → Engine Unit) : Prop :=
  ∀ (R : Set Handle) (h : Handle) (loss : Option Pattern), h ∈ R → Accounts R (refresh h loss)

variable {arrive : NodeKey → Handle → Engine Unit} {refresh : Handle → Option Pattern → Engine Unit}

/-- **A flow that is registered is listed from then on.** -/
theorem stops_register (hB : p.network.Books R) (hn : n ∈ p.network.nodes) (hkey : n.key = key)
    (hf : p.network.flows.find? h = some f) (hnode : f.node = key) :
    Stops (register key h) p (Balanced R) fun _ p' ↦ p'.network.Books (R ∪ {h}) := by
  have hmid := hB.enlist hn hkey hf hnode
  rw [register, updateNode, stops_update_bind]
  refine Accounts.flow_bind fun f' _ ↦ ?_
  split
  · rw [updateFlow, stops_update]
    refine hmid.withFlow (fun _ ↦ rfl) (fun f _ c hc ↦ ?_) (.inr fun _ ↦ id)
    rcases List.mem_append.1 hc with hc | hc
    · exact .inl hc
    · exact .inr (hmid.enrolled c (.inr (List.mem_singleton.1 hc)))
  · exact hmid

/-- What a flow sends is computed only for one that is listed. -/
theorem accounts_recompute (key : NodeKey) (hh : h ∈ R) : Accounts R (recompute key h) := by
  have hset : ∀ s : Option Space,
      Accounts R (updateFlow h fun f ↦ { f with processed := s }) := fun s ↦
    accounts_updateFlow (fun _ ↦ rfl) (fun _ ↦ List.Subset.refl _) (.inl hh)
  refine (accounts_node key).bind fun n ↦ ?_
  split
  · refine (accounts_flow h).bind fun f ↦ (aside_subtractInfluences _ _ _).accounts.bind fun left ↦
      (accounts_check (left.faults_compact _).notCount).bind fun left ↦ ?_
    split
    · exact (hset none).bind fun _ ↦ accounts_pure
    · exact (accounts_check (Rule.faults_rewrite _ left)).bind fun sent ↦
        (hset (some sent)).bind fun _ ↦ accounts_pure
  · exact accounts_pure

/-- Sending headers through a pipe may go wrong by their lengths, not by counts. -/
theorem faults_pipeOut (processed : Space) (side : Pipe) :
    Faults Fault.NotCount (pipeOut processed side) :=
  (processed.faults_clip _).notCount.bind fun out ↦ (out.faults_compact none).notCount

theorem accounts_markLooped (key : NodeKey) (h : Handle) (first : NodeId) :
    Accounts R (markLooped key h first) :=
  (accounts_updateFlow (by exact fun _ ↦ rfl) (by exact fun _ ↦ List.Subset.refl _)
    (.inr (by exact fun _ ↦ id))).bind fun _ ↦
      (accounts_node key).bind fun _ ↦ accounts_event.bind fun _ ↦ accounts_report _

/-- **A new flow is on no list**, and has nothing to send until it is. -/
theorem accounts_sendHeaders (harrive : Receives arrive) (key : NodeKey) (h fwd : Handle)
    (side : Pipe) (measure : Measure) (f : Flow) (processed : Space) :
    Accounts R (sendHeaders arrive key h fwd side measure f processed) := by
  refine (accounts_check (faults_pipeOut processed side)).bind fun out ↦ ?_
  split
  · exact accounts_pure
  · refine (accounts_pipe _).bind fun back ↦
      (aside_reportLost _ _ _ _ _ _ _).accounts.bind fun _ p hB ↦ ?_
    rw [stops_insertFlow_bind]
    exact harrive R _ _ _ _ (hB.insert rfl rfl) (Arena.find?_insert_self hB.valid) rfl

/-- Sending a flow down a pipe keeps the books if arriving at the other end does. -/
theorem accounts_send (harrive : Receives arrive) (key : NodeKey) (h fwd : Handle)
    (measure : Measure) : Accounts R (send arrive key h fwd measure) := by
  refine (accounts_pipe? fwd).bind fun o ↦ ?_
  split
  · refine (aside_blocked _ _ _).accounts.bind fun blocked ↦ ?_
    split
    · exact accounts_pure
    · refine (accounts_flow h).bind fun f ↦ ?_
      split
      · exact accounts_sendHeaders harrive _ _ _ _ _ _ _
      · exact accounts_pure
  · exact accounts_pure

theorem accounts_sendAll (harrive : Receives arrive) (key : NodeKey) (h : Handle) :
    Accounts R (sendAll arrive key h) :=
  (accounts_node key).bind fun _ ↦ accounts_forM fun fwd _ ↦ accounts_send harrive key h fwd .flow

/-- **A flow is taken in**: it is listed first, and gets its headers then. -/
theorem receives_takeIn (harrive : Receives arrive) : Receives (takeIn arrive) := by
  intro R key h f p hB hf hnode
  have hh : h ∈ R ∪ {h} := .inr rfl
  rw [takeIn]
  refine Accounts.node_bind fun n hn hkey ↦ ?_
  -- what follows may rely on the flow being listed, and need not say so at the end
  have hregister : ∀ {x : Engine Unit}, Accounts (R ∪ {h}) x →
      Stops (register key h >>= fun _ ↦ x) p (Balanced R) fun _ p' ↦ p'.network.Books R := fun hx ↦
    (stops_register hB hn hkey hf hnode).bind fun _ p' hB' ↦
      stops_mono (hx p' hB') Set.subset_union_left fun _ _ hend ↦ hend
  split
  · refine hregister ((accounts_ask fun net ↦ net.faults_loopOf h).bind fun back ↦ ?_)
    split
    · exact accounts_markLooped _ _ _
    · refine (accounts_recompute key hh).bind fun alive ↦ ?_
      split
      · exact accounts_sendAll harrive key h
      · exact accounts_pure
  · exact hregister
      ((accounts_updateFlow (by exact fun _ ↦ rfl) (by exact fun _ ↦ List.Subset.refl _)
      (.inl hh)).bind fun _ ↦ accounts_arrived key h)
  · exact accounts_sendAll harrive key h p hB

/-- A visit does not get in the way. -/
theorem Receives.visit {body : NodeKey → Handle → Engine Unit} (hbody : Receives body) :
    Receives fun key h ↦ visit (body key h) := fun R key h f _ hB hf hnode ↦
  (stops_enter_books hB).bind fun _ p' hend ↦
    (hbody R key h f p' hend.1 (hend.2 ▸ hf) hnode).bind fun _ _ hend ↦ hend.of_face rfl

/-- **However much room there is for visits, arriving keeps the books.** Without room nothing is
done at all. -/
theorem receives_arriveWithin : ∀ room : Nat, Receives (arriveWithin room)
  | 0 => fun _ _ _ _ p hB _ _ ↦ accounts_tooDeep p hB
  | room + 1 => (receives_takeIn (receives_arriveWithin room)).visit

theorem receives_arrive : Receives Engine.arrive := fun R key h f p hB hf hnode ↦
  receives_arriveWithin _ R key h f p hB hf hnode

/-! ### Refreshing -/

theorem accounts_pushLoss (hrefresh : Revises refresh) (loss : Pattern) {child : Handle}
    (hchild : child ∈ R) : Accounts R (pushLoss refresh loss child) := by
  refine (accounts_flow? child).bind fun o ↦ ?_
  split
  · split
    · refine (accounts_pipe? _).bind fun o ↦ ?_
      split
      · refine (accounts_check (Pattern.faults_intersect _ _).notCount).bind fun o ↦ ?_
        split
        · refine (accounts_check (Space.faults_cut _ _).notCount).bind fun _ ↦ ?_
          exact (accounts_updateFlow (by exact fun _ ↦ rfl) (by exact fun _ ↦ List.Subset.refl _)
            (.inl hchild)).bind fun _ ↦ hrefresh R child _ hchild
        · exact accounts_pure
      · exact accounts_pure
    · exact accounts_pure
  · exact accounts_pure

theorem accounts_renewChild (hrefresh : Revises refresh) (processed : Space) {child : Handle}
    (hchild : child ∈ R) : Accounts R (renewChild refresh processed child) := by
  refine (accounts_flow? child).bind fun o ↦ ?_
  split
  · split
    · refine (accounts_pipe? _).bind fun o ↦ ?_
      split
      · refine (accounts_check (faults_pipeOut _ _)).bind fun out ↦ ?_
        split
        · exact (accounts_removeFlow _).bind fun _ ↦ accounts_pure
        · refine (accounts_updateFlow (by exact fun _ ↦ rfl) (by exact fun _ ↦ List.Subset.refl _)
            (.inl hchild)).bind fun _ ↦ ?_
          exact (hrefresh R child none hchild).bind fun _ ↦ accounts_pure
      · exact (accounts_removeFlow _).bind fun _ ↦ accounts_pure
    · exact accounts_pure
  · exact accounts_pure

/-- The children of a listed flow are renewed one after the other; each of them is listed. -/
theorem accounts_renewChildren (hrefresh : Revises refresh) (processed : Space) :
    ∀ cs : List Handle, (∀ c ∈ cs, c ∈ R) → Accounts R (renewChildren refresh processed cs)
  | [], _ => accounts_pure
  | c :: cs, hcs => (accounts_renewChild hrefresh processed (hcs c List.mem_cons_self)).bind fun _ ↦
      (accounts_renewChildren hrefresh processed cs fun d hd ↦
        hcs d (List.mem_cons_of_mem _ hd)).bind fun _ ↦
        accounts_pure

/-- **What came from a flow is listed**, while it is renewed. -/
theorem accounts_passOn (harrive : Receives arrive) (hrefresh : Revises refresh) (h : Handle)
    (loss : Option Pattern) : Accounts R (passOn arrive refresh h loss) := by
  intro p hB
  rw [passOn]
  refine Accounts.flow_bind fun f hf ↦ ?_
  -- the children are read once, and some may be gone when it is their turn
  have hlisted : ∀ c ∈ { c | c ∈ f.children }, p.network.Enrolled c := hB.children h f hf
  have hchildren : ∀ c ∈ f.children, c ∈ R ∪ { c | c ∈ f.children } := fun _ hc ↦ .inr hc
  refine Accounts.enrol ?_ hB hlisted
  split
  · exact accounts_forM fun c hc ↦ accounts_pushLoss hrefresh _ (hchildren c hc)
  · split
    · refine (accounts_renewChildren hrefresh _ _ hchildren).bind fun used ↦
        (accounts_node _).bind fun n ↦
        accounts_forM fun fwd _ ↦ ?_
      split
      · exact accounts_send harrive _ _ _ _
      · exact accounts_pure
    · exact accounts_pure

theorem accounts_goOn (harrive : Receives arrive) (hrefresh : Revises refresh) (h : Handle)
    (loss : Option Pattern) (alive : Bool) : Accounts R (goOn arrive refresh h loss alive) := by
  rw [goOn]
  split
  · exact accounts_passOn harrive hrefresh h loss
  · exact (accounts_dropBelow h).bind fun _ ↦ (accounts_flow h).bind fun _ ↦
      accounts_updateFlow (by exact fun _ ↦ rfl) (by exact fun _ ↦ List.Subset.refl _)
        (.inr (by exact fun _ _ ↦ rfl))

theorem accounts_lose (hh : h ∈ R) (processed : Space) (loss : Pattern) :
    Accounts R (lose h processed loss) :=
  (accounts_check ((processed.faults_cut loss).notCount.bind fun _ ↦
    (Space.faults_compact _ _).notCount)).bind
    fun _ ↦
      (accounts_updateFlow (by exact fun _ ↦ rfl) (by exact fun _ ↦ List.Subset.refl _)
        (.inl hh)).bind
      fun _ ↦ accounts_pure

/-- At a rule a flow that loses headers may have to be computed again, and is listed by
assumption. -/
theorem accounts_reconsiderAtRule (harrive : Receives arrive) (hrefresh : Revises refresh)
    (hh : h ∈ R) (f : Flow) (r : Rule) (loss : Option Pattern) :
    Accounts R (reconsiderAtRule arrive refresh h f r loss) := by
  unfold reconsiderAtRule
  split
  · exact accounts_pure
  · split
    · exact (accounts_recompute f.node hh).bind fun alive ↦
        accounts_goOn harrive hrefresh h none alive
    · split
      · exact (accounts_lose hh _ _).bind fun alive ↦ accounts_goOn harrive hrefresh h _ alive
      · exact accounts_pure

theorem accounts_reconsiderAtProbe (hh : h ∈ R) (f : Flow) (loss : Option Pattern) :
    Accounts R (reconsiderAtProbe h f loss) := by
  unfold reconsiderAtProbe
  split
  · exact (accounts_lose hh _ _).discard
  · exact accounts_pure
  · exact accounts_updateFlow (by exact fun _ ↦ rfl) (by exact fun _ ↦ List.Subset.refl _) (.inl hh)

theorem revises_reconsider (harrive : Receives arrive) (hrefresh : Revises refresh) :
    Revises (reconsider arrive refresh) := by
  refine fun R h loss hh ↦ (accounts_flow? h).bind fun o ↦ ?_
  split
  · refine (accounts_node _).bind fun n ↦ ?_
    split
    · exact accounts_reconsiderAtRule harrive hrefresh hh _ _ loss
    · exact (accounts_reconsiderAtProbe hh _ loss).bind fun _ ↦ accounts_changed _ h
    · exact accounts_pure
  · exact accounts_pure

/-- **However much room there is for visits, looking at a flow anew keeps the books.** -/
theorem revises_refreshWithin : ∀ room : Nat, Revises (refreshWithin room)
  | 0 => fun _ _ _ _ ↦ accounts_tooDeep
  | room + 1 => fun R h loss hh ↦ accounts_visit
      (revises_reconsider (receives_arriveWithin room) (revises_refreshWithin room) R h loss hh)

theorem revises_refresh : Revises Engine.refresh := fun R h loss hh ↦
  accounts_room.bind fun _ ↦ revises_refreshWithin _ R h loss hh

theorem accounts_sendFlows (key : NodeKey) (fwd : Handle) : Accounts R (sendFlows key fwd) := by
  refine (accounts_node key).bind fun n ↦ accounts_forM fun h _ ↦ (accounts_flow? h).bind fun o ↦ ?_
  split
  · exact accounts_send receives_arrive _ _ _ _
  · exact accounts_pure

theorem accounts_pull (key : NodeKey) : Accounts R (pull key) := by
  refine (accounts_node key).bind fun n ↦
    accounts_forM fun back _ ↦ (accounts_pipe? back).bind fun o ↦ ?_
  split
  · exact (accounts_pipe _).bind fun _ ↦ accounts_sendFlows _ _
  · exact accounts_pure

/-- **What the node lists stays listed** while it is looked at anew. -/
theorem accounts_refreshFlows (key : NodeKey) (ports : PortSet) (loss : Option Pattern) :
    Accounts R (refreshFlows key ports loss) := by
  intro p hB
  rw [refreshFlows]
  refine Accounts.node_bind fun n hn _ ↦ ?_
  have hlisted : ∀ h ∈ { h | h ∈ n.flows }, p.network.Enrolled h := hB.listed n hn
  refine Accounts.enrol ?_ hB hlisted
  refine accounts_forM fun h hh ↦ (accounts_flow? h).bind fun o ↦ ?_
  split
  · exact revises_refresh _ h loss (.inr hh)
  · exact accounts_pure

end HeaderFlow.Engine
