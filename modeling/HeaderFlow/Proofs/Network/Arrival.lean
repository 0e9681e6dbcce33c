import HeaderFlow.Proofs.Network.Drop
import HeaderFlow.Proofs.Network.Headers

/-!
# Arriving

`Arrives` is what is asked of a way of taking a flow that has just come into being: **it pays for
the flow, and for everything that comes from it**. Whoever sends a flow down a pipe relies on
`Arrives` for what comes out, so the specification is proved for each number of visits from that for
one less.

## From one flow to the next

* A flow that comes out of a pipe is stored first (`inv_issue`). It is `Fresh`: it has no children,
  has not been computed, and is on no list. For that time it is an orphan and stale.
* It is registered at its node and with the flow it came from (`inv_register`), which ends its being
  an orphan.
* What it sends is computed (`inv_computed`), or found to be everything that arrived at nodes that
  are no rules. From here on its pipes are pending.
* Sending it down a pipe pays for the pipe (`inv_send`), also where nothing comes out at the
  other end, and `inv_sendAll` pays for all of them.

The steps meet in `inv_takeIn`, which is about a given `arrive` for what comes from the flow;
`arriveWithin_arrives` ties the knot by induction on the room for visits.

## Pulling

A node that was connected anew pulls what its neighbours have to send (`inv_pull`). This is the same
sending, seen from the other end: it pays for the pipes that lead to the node.
-/

namespace HeaderFlow

open Region

namespace Flow

/-- The flow has just come out of a pipe. -/
structure Fresh (f : Flow) : Prop where
  parent : f.parent ≠ none
  processed : f.processed = none
  children : f.children = []
  looped : f.looped = false
  normalized : f.input.Normalized

/-- A flow that has not been computed sends nothing. -/
theorem not_sends {f : Flow} (hf : f.processed = none) (x : Nat → Bool) : ¬ f.Sends x := by
  rintro ⟨s, hs, -⟩
  exact absurd (hf.symm.trans hs) (by simp)

end Flow

namespace Engine

variable {net net' : Network} {D : Set Debt} {d : Nat} {h c fwd : Handle} {f g : Flow} {n : Node}
  {w : Wire} {arrive : NodeKey → Handle → Engine Unit}

/-- The flow is on no list yet. -/
structure Unlisted (net : Network) (c : Handle) : Prop where
  roster : ∀ key, c ∉ net.roster key
  children : ∀ h f, net.flows.find? h = some f → c ∉ f.children

/-- What is asked of a way of taking a flow that has just arrived. -/
def Arrives (arrive : NodeKey → Handle → Engine Unit) : Prop :=
  ∀ net net' c g D d, Leads (arrive g.node c) net () net' → Inv net {c} (D ∪ {.stale c}) →
    net.flows.find? c = some g → g.Fresh → Unlisted net c → Depth net.flows c d →
      Inv net' ∅ D ∧ Frame d net net'

/-! ### Listing a flow

A flow that is stored is an orphan until its parent and its node list it. -/

/-- A flow that has just been stored is on no list. -/
theorem unlisted_insert (hI : Inv net ∅ D) (hnil : g.children = []) :
    Unlisted { net with flows := net.flows.insert g } net.flows.nextHandle := by
  have hdead : ∀ l, net.flows.find? net.flows.nextHandle ≠ some l := by
    simp [Arena.find?_nextHandle hI.valid]
  refine ⟨fun key hmem ↦ ?_, fun k l hkl hmem ↦ ?_⟩
  · obtain ⟨l, hl, -⟩ := hI.listed.only key _ hmem
    exact hdead l hl
  · rcases Arena.of_find?_insert hI.valid hkl with ⟨rfl, rfl⟩ | ⟨-, hkl⟩
    · exact absurd (hnil ▸ hmem) List.not_mem_nil
    · obtain ⟨l', hl', -⟩ := hI.forest.children k l _ hkl hmem
      exact hdead l' hl'

/-- A flow that is put on the list of its node. -/
theorem listed_enlist (hl : Listed net {c}) (hg : net.flows.find? c = some g)
    (hn : net.nodeAt? g.node = some n) (hc : c ∉ net.roster g.node) :
    Listed (withNode net g.node fun n ↦ { n with flows := n.flows ++ [c] }) ∅ := by
  have hroster : ∀ key, (withNode net g.node fun n ↦
      { n with flows := n.flows ++ [c] }).roster key =
        if key = g.node then net.roster key ++ [c] else net.roster key := by
    intro key
    rw [Network.roster, tied_withNode (by exact fun _ _ hkey ↦ hkey)]
    split
    · rename_i hkey
      rw [hkey, Network.roster, Network.tied_of_nodeAt? hn, hn]
      rfl
    · rfl
  refine ⟨fun k l hl' _ ↦ ?_, fun key k hk ↦ ?_, fun key ↦ ?_⟩
  · rw [hroster]
    by_cases hk : k = c
    · subst hk
      rw [hg] at hl'
      obtain rfl := Option.some.inj hl'
      simp
    · have := hl.all k l hl' hk
      split
      · exact List.mem_append_left _ this
      · exact this
  · rw [hroster] at hk
    split at hk
    · rcases List.mem_append.1 hk with hk | hk
      · exact hl.only key k hk
      · exact ⟨g, List.mem_singleton.1 hk ▸ hg, Eq.symm ‹_›⟩
    · exact hl.only key k hk
  · rw [hroster]
    split
    · rename_i hkey
      subst hkey
      exact List.concat_eq_append ▸ (hl.nodup _).concat hc
    · exact hl.nodup key

/-- **A flow that is registered is no orphan.** -/
theorem inv_register (hl : Leads (register g.node c) net () net') (hI : Inv net {c} D)
    (hg : net.flows.find? c = some g) (hc : Unlisted net c) :
    Inv net' ∅ D ∧ (∀ e, Frame e net net') ∧ net'.flows.find? c = some g := by
  obtain ⟨n, hn⟩ := hI.node hg
  have hlisted := listed_enlist hI.listed hg hn (hc.roster _)
  have hlayout : (withNode net g.node fun n ↦ { n with flows := n.flows ++ [c] }).layout =
      net.layout := layout_withNode fun _ _ _ ↦ ⟨rfl, rfl, rfl, rfl, rfl⟩
  rw [register, leads_updateNode_bind, leads_flow_bind] at hl
  obtain ⟨g', hg', hl⟩ := hl
  rw [hg] at hg'
  obtain rfl := Option.some.inj hg'
  cases hp : g.parent with
  | none =>
    simp only [hp] at hl
    obtain ⟨-, rfl⟩ := leads_pure.1 hl
    refine ⟨⟨hlayout ▸ hI.layout, hI.valid, hlisted, ?_, hlayout ▸ hI.sound⟩,
      fun e ↦ ⟨hlayout, .refl _, .refl e _⟩, hg⟩
    rw [hlayout]
    refine { hI.forest with listed := fun k l p q hl _ hlp hq ↦ ?_ }
    refine hI.forest.listed k l p q hl ?_ hlp hq
    rintro rfl
    rw [hg] at hl
    obtain rfl := Option.some.inj hl
    exact absurd (hp.symm.trans hlp) (by simp)
  | some p =>
    simp only [hp] at hl
    obtain rfl := leads_updateFlow.1 hl
    obtain ⟨q, hq⟩ := hI.forest.parent_live hg hp
    have hr := Replaces.modify (k := fun f : Flow ↦ { f with children := f.children ++ [c] }) hq rfl
    have hne : c ≠ p := by
      rintro rfl
      exact hI.parent_ne_self hg hp
    refine ⟨⟨hlayout ▸ hI.layout, Arena.valid_modify hI.valid, Inv.listed_of_replaces hr hlisted,
      ?_, hlayout ▸ hr.sound_of_alike hI.sound ⟨_, rfl⟩⟩,
      fun e ↦ ⟨hlayout, .modify fun _ ↦ rfl, .modify_children fun _ ↦ ⟨_, rfl⟩⟩,
      (hr.other c hne).trans hg⟩
    change Forest (withNode net g.node _).layout _ _
    rw [hlayout]
    refine hr.forest hI.forest (fun k hk ↦ ?_) (fun k l hl _ hlp ↦ ?_)
      (fun k l q hkl hlp hqp hk ↦ ?_) (fun hlooped ↦ hI.forest.looped p q hq hlooped)
      (List.concat_eq_append ▸ (hI.forest.nodup p q hq).concat (hc.children p q hq))
    · rcases List.mem_append.1 hk with hk | hk
      · exact hI.forest.children p q k hq hk
      · exact ⟨g, List.mem_singleton.1 hk ▸ hg, hp⟩
    · by_cases hk : k = c
      · exact List.mem_append_right _ (List.mem_singleton.2 hk)
      · exact List.mem_append_left _ (hI.forest.listed k l p q hl hk hlp hq)
    · obtain rfl : k = c := hk
      rw [hg] at hkl
      obtain rfl := Option.some.inj hkl
      exact absurd (Option.some.inj (hlp.symm.trans hp)) hqp

/-! ### Sending

What is sent down a pipe are the headers that leave the flow and fit through. If there are none,
nothing is stored; either way the debt of the flow for this pipe is paid. -/

/-- The flow that comes out of a pipe. -/
def issue (f : Flow) (h fwd : Handle) (back : Pipe) (out : Space) : Flow where
  node := back.node
  source := f.source
  input := out
  processed := none
  port := back.port
  pipe := some fwd
  parent := some h
  children := []
  looped := false

/-- What comes out of a pipe has no children and has not been computed. -/
theorem fresh_issue {back : Pipe} {out : Space} (hout : out.Normalized) :
    (issue f h fwd back out).Fresh :=
  ⟨by simp [issue], rfl, rfl, rfl, hout⟩

/-- **What comes out of a pipe may be stored as a flow**, which is an orphan and stale for the time
being. -/
theorem inv_issue {side back : Pipe} {processed out : Space} (hI : Inv net ∅ (D ∪ {.pending h fwd}))
    (hf : net.flows.find? h = some f) (hside : net.pipes.find? fwd = some side)
    (hback : net.pipes.find? side.reverse = some back) (hnext : fwd ∈ net.layout.next f.node)
    (hsender : side.node = f.node) (hsends : f.processed = some processed)
    (hleaves : f.Leaves side.port) (hout : pipeOut processed side = .ok out) :
    Inv { net with flows := net.flows.insert (issue f h fwd back out) } {net.flows.nextHandle}
      (D ∪ {.stale net.flows.nextHandle}) := by
  have hw : net.layout.Runs fwd ⟨side.node, side.port, back.node, back.port, side.pattern⟩ :=
    ⟨side, back, hside, hback, hsender ▸ hnext, rfl⟩
  obtain ⟨hcover, htrim, -, hheight⟩ := pipeOut_spec hout
  have hpasses : ∀ w', net.layout.Runs fwd w' →
      Passes D w' net.flows.nextHandle (issue f h fwd back out) f := by
    intro w' hw'
    rw [← hw.unique hw']
    refine ⟨fun _ ↦ by simp [hsends], fun _ x hx hm ↦ ?_, fun _ x hx ↦ ?_⟩
    · obtain ⟨s, hs, hxs⟩ := hx
      obtain rfl := Option.some.inj (hsends.symm.trans hs)
      exact (hcover x).2 ⟨hxs, hm⟩
    · obtain ⟨hxs, hm⟩ := (hcover x).1 hx
      exact ⟨hm, .inl ⟨processed, hsends, hxs⟩⟩
  have hshaped : Shaped net.layout net.flows (issue f h fwd back out) := by
    refine ⟨fun _ ↦ ⟨_, htrim⟩, by simp [issue], fun r hr hrp ↦ ⟨?_, by simp [issue]⟩⟩
    exact Nat.le_trans hheight ((hI.height hf hr hrp).2 processed hsends)
  refine ⟨hI.layout, Arena.valid_insert hI.valid,
    ⟨fun k l hkl hk ↦ ?_, fun key k hk ↦ ?_, hI.listed.nodup⟩, ?_,
    hI.sound.insert hI.valid rfl rfl hf rfl rfl hpasses hshaped hI.forest⟩
  · rw [Arena.find?_insert_of_ne hI.valid hk] at hkl
    exact hI.listed.all k l hkl (Set.notMem_empty k)
  · obtain ⟨l, hkl, hnode⟩ := hI.listed.only key k hk
    exact ⟨l, Arena.find?_insert_of_some hI.valid hkl, hnode⟩
  · refine (hI.forest.insert (f := issue f h fwd back out) hI.valid rfl rfl (by simp [issue]) ?_
      ?_).mono (by simp)
    · rintro p ⟨⟩
      exact ⟨f, hf, rfl, fwd, _, rfl, hw, hsender, rfl, rfl⟩
    · rintro p f' fwd' w' ⟨⟩ hf' ⟨⟩ hw'
      obtain rfl := Option.some.inj (hf.symm.trans hf')
      exact hw.unique hw' ▸ hleaves

/-- What is sent down a pipe comes out as a fresh flow. -/
theorem inv_sendHeaders {side : Pipe} {measure : Measure} {processed : Space}
    (harrive : Arrives arrive)
    (hl : Leads (sendHeaders arrive f.node h fwd side measure f processed) net () net')
    (hI : Inv net ∅ (D ∪ {.pending h fwd})) (hf : net.flows.find? h = some f)
    (hd : Depth net.flows h d) (hw : net.layout.Runs fwd w) (hsender : w.sender = f.node)
    (hside : net.pipes.find? fwd = some side) (hsends : f.processed = some processed)
    (hleaves : f.Leaves w.outPort) : Inv net' ∅ D ∧ Frame (d + 1) net net' := by
  obtain ⟨side', back, hside', hback, hnext, rfl⟩ := id hw
  obtain rfl := Option.some.inj (hside.symm.trans hside')
  rw [sendHeaders, leads_check_bind] at hl
  obtain ⟨out, hout, hl⟩ := hl
  obtain ⟨hcover, -, hnormal, -⟩ := pipeOut_spec hout
  rcases hl.ite with ⟨hempty, hl⟩ | ⟨-, hl⟩
  · obtain ⟨-, rfl⟩ := leads_pure.1 hl
    refine ⟨hI.withSound (hI.sound.settle fun k w' hk hw' _ ↦ .inr fun x hx hm ↦ ?_), .refl _ _⟩
    obtain rfl := Option.some.inj (hf.symm.trans hk)
    obtain ⟨s, hs, hxs⟩ := hx
    obtain rfl := Option.some.inj (hsends.symm.trans hs)
    rw [← hw.unique hw'] at hm
    exact Space.not_contains_of_isEmpty hempty ((hcover x).2 ⟨hxs, hm⟩)
  · rw [leads_pipe_bind] at hl
    obtain ⟨back', hback', hl⟩ := hl
    obtain rfl := Option.some.inj (hback.symm.trans hback')
    obtain ⟨⟨⟩, net₁, hreport, hrest⟩ := hl.bind
    obtain rfl := hreport.reportLost
    rw [leads_insertFlow_bind] at hrest
    have hself := Arena.find?_insert_self (v := issue f h fwd back out) hI.valid
    have hI₁ := inv_issue hI hf hside hback (hsender ▸ hnext) hsender hsends hleaves hout
    have hframe : Frame (d + 1) net₁
        { net₁ with flows := net₁.flows.insert (issue f h fwd back out) } :=
      ⟨rfl, .insert hI.valid (by simp [issue]), .insert hI.valid _⟩
    have hdepth : Depth (net₁.flows.insert (issue f h fwd back out)) net₁.flows.nextHandle
        (d + 1) :=
      .step hself rfl (hframe.spares.depth hd (Nat.lt_succ_self d))
    obtain ⟨hI', hframe'⟩ := harrive _ net' _ (issue f h fwd back out) D (d + 1) hrest hI₁ hself
      (fresh_issue hnormal) (unlisted_insert hI rfl) hdepth
    exact ⟨hI', hframe.trans hframe'⟩

/-- **Sending a flow down a pipe pays for the pipe**, also where nothing comes of it. -/
theorem inv_send {measure : Measure} (harrive : Arrives arrive)
    (hl : Leads (send arrive f.node h fwd measure) net () net')
    (hI : Inv net ∅ (D ∪ {.pending h fwd})) (hf : net.flows.find? h = some f)
    (hd : Depth net.flows h d) (hw : net.layout.Runs fwd w) (hsender : w.sender = f.node) :
    Inv net' ∅ D ∧ Frame (d + 1) net net' := by
  obtain ⟨side, back, hside, -, -, hwire⟩ := id hw
  rw [send, leads_pipe?_bind, show net.pipes.find? fwd = some side from hside] at hl
  obtain ⟨ans, net₁, hblocked, hrest⟩ := hl.bind
  obtain ⟨rfl, hstop, hgo⟩ := hblocked.blocked hI hf
  rcases hrest.ite with ⟨hans, hrest⟩ | ⟨hans, hrest⟩
  · obtain ⟨-, rfl⟩ := leads_pure.1 hrest
    refine ⟨hI.withSound (hI.sound.settle fun k w' hk hw' hleaves ↦ ?_), .refl _ _⟩
    obtain rfl := Option.some.inj (hf.symm.trans hk)
    rw [← hw.unique hw', hwire] at hleaves
    exact absurd hleaves (hstop hans)
  · rw [leads_flow_bind] at hrest
    obtain ⟨f', hf', hrest⟩ := hrest
    obtain rfl := Option.some.inj (hf.symm.trans hf')
    cases hp : f.processed with
    | none =>
      simp only [hp] at hrest
      obtain ⟨-, rfl⟩ := leads_pure.1 hrest
      refine ⟨hI.withSound (hI.sound.settle fun k w' hk _ _ ↦ .inr fun x hx ↦ ?_), .refl _ _⟩
      obtain rfl := Option.some.inj (hf.symm.trans hk)
      exact absurd hx (Flow.not_sends hp x)
    | some processed =>
      simp only [hp] at hrest
      refine inv_sendHeaders harrive hrest hI hf hd hw hsender hside hp ?_
      obtain ⟨m, -, -, hm, -, -, hport, -⟩ := hI.layout.ends hw
      rw [hwire] at hport ⊢
      exact hgo m (hsender ▸ hm) hport (by simpa using hans)

/-- The pipes of a node are wires that it sends by. -/
theorem runs_of_next (hI : Inv net ∅ D) {key : NodeKey} (hn : net.nodeAt? key = some n)
    (hfwd : fwd ∈ n.next) : ∃ w, net.layout.Runs fwd w ∧ w.sender = key := by
  obtain ⟨back, a, b, m, m', hj, rfl⟩ := hI.layout.next key fwd
    (show fwd ∈ net.tied Node.next key from Network.tied_of_nodeAt? hn ▸ hfwd)
  exact ⟨_, hj.runs, rfl⟩

/-- **Sending a flow down a list of pipes**, of which some may be passed over. -/
theorem inv_forM_next {body : Handle → Engine Unit} {P : Handle → Prop} (harrive : Arrives arrive)
    (hl : Leads (n.next.forM body) net () net')
    (hbody : ∀ fwd net₁ net₂, Leads (body fwd) net₁ () net₂ →
      (∃ measure, Leads (send arrive f.node h fwd measure) net₁ () net₂) ∨ ¬ P fwd ∧ net₂ = net₁)
    (hI : Inv net ∅ (D ∪ {d | ∃ fwd, d = .pending h fwd ∧ P fwd}))
    (hn : net.nodeAt? f.node = some n) (hf : net.flows.find? h = some f)
    (hd : Depth net.flows h d) : Inv net' ∅ D ∧ Frame (d + 1) net net' := by
  -- only pipes of the node matter
  have hsome : Inv net ∅ (D ∪ {d | ∃ fwd ∈ n.next, d = .pending h fwd ∧ P fwd}) := by
    refine hI.withSound (hI.sound.paySent (h := h) ?_ ?_)
    · rintro d (hmem | ⟨fwd, rfl, -⟩) hne
      · exact .inl hmem
      · exact absurd rfl (hne fwd)
    · intro k hk fwd w hw hsender hleaves hp
      obtain rfl := Option.some.inj (hf.symm.trans hk)
      obtain ⟨-, -, -, -, -, hmem, -⟩ := hI.layout.ends hw
      rw [hsender, show net.layout.next f.node = n.next from Network.tied_of_nodeAt? hn] at hmem
      refine hI.sound.sent h f hk fwd w hw hsender hleaves fun hmem' ↦ ?_
      rcases hmem' with hmem' | ⟨_, he, hP⟩
      · exact hp (.inl hmem')
      · obtain ⟨-, rfl⟩ := Debt.pending.inj he
        exact hp (.inr ⟨fwd, hmem, rfl, hP⟩)
  refine inv_forM_pay (fun _ fwd ↦ {e | e = .pending h fwd ∧ P fwd}) hl hsome (fun _ he _ ↦ he) ?_
  intro fwd hmem mid mid' D hframe hstep hImid
  rcases hbody fwd mid mid' hstep with ⟨measure, hsend⟩ | ⟨hP, rfl⟩
  · obtain ⟨w, hw, hsender⟩ := runs_of_next hI hn hmem
    obtain ⟨f', hf', halike⟩ := hframe.spares h d f hd (Nat.lt_succ_self d) hf
    rw [← hframe.layout] at hw
    have hnode := Flow.node_eq halike.way
    rw [← hnode] at hsend hsender
    exact inv_send harrive hsend (hImid.mono (Set.union_subset_union_right _ fun _ he ↦ he.1)) hf'
      (hframe.spares.depth hd (Nat.lt_succ_self d)) hw hsender
  · exact ⟨hImid.mono fun _ he ↦ he.resolve_right fun he ↦ hP he.2, .refl _ _⟩

/-- **A flow is sent down all pipes of its node**, and then owes none of them. -/
theorem inv_sendAll (harrive : Arrives arrive) (hl : Leads (sendAll arrive f.node h) net () net')
    (hI : Inv net ∅ (D ∪ {d | ∃ fwd, d = .pending h fwd})) (hf : net.flows.find? h = some f)
    (hd : Depth net.flows h d) : Inv net' ∅ D ∧ Frame (d + 1) net net' := by
  rw [sendAll, leads_node_bind] at hl
  obtain ⟨n, hn, hl⟩ := hl
  refine inv_forM_next (P := fun _ ↦ True) harrive hl (fun fwd _ _ hstep ↦ .inl ⟨_, hstep⟩) ?_ hn hf
    hd
  exact hI.mono fun d hd ↦ hd.imp_right fun ⟨fwd, he⟩ ↦ ⟨fwd, he, trivial⟩

/-! ### Taking in

Taking in a flow decides what happens to it: it has come back, it is at a probe, or it is at a rule
that sends it on. The first of these takes it as having gone round, and a flow that has gone round
owes nothing. -/

/-- A flow on which nothing hangs has no flow that came from it. -/
theorem parent_ne_of_children (hI : Inv net ∅ D) (hg : net.flows.find? c = some g)
    (hnil : g.children = []) (k : Handle) (l : Flow) (hl : net.flows.find? k = some l) :
    l.parent ≠ some c := fun hp ↦
  absurd (hI.forest.listed k l c g hl (Set.notMem_empty k) hp hg) (hnil ▸ List.not_mem_nil)

/-- A flow that has come back to a rule goes no further and owes nothing. -/
theorem inv_markLooped {first : NodeId} {key : NodeKey}
    (hl : Leads (markLooped key c first) net () net') (hI : Inv net ∅ (D ∪ {.stale c}))
    (hg : net.flows.find? c = some g) (hfresh : g.Fresh)
    (hmeets : ∃ place, net.layout.loopKey? g.node = some place ∧
      Meets net.layout net.flows place g.parent) (hd : Depth net.flows c d) :
    Inv net' ∅ D ∧ Frame d net net' := by
  rw [markLooped, leads_updateFlow_bind, leads_node_bind] at hl
  obtain ⟨n, -, hl⟩ := hl
  rw [leads_event_bind, leads_report] at hl
  subst hl
  have hr := Replaces.modify (k := fun f : Flow ↦ { f with looped := true }) hg rfl
  have hleaf := parent_ne_of_children hI hg hfresh.children
  have hnone : ∀ x, ¬ ({ g with looped := true } : Flow).Sends x := Flow.not_sends hfresh.processed
  refine ⟨⟨hI.layout, Arena.valid_modify hI.valid, Inv.listed_of_replaces hr hI.listed, ?_, ?_⟩,
    frame_withFlow (fun _ ↦ rfl) hd⟩
  · exact hr.forest hI.forest (fun k hk ↦ hI.forest.children c g k hg hk)
      (fun k l hkl _ hp ↦ absurd hp (hleaf k l hkl))
      (fun k _ _ _ _ _ hmem ↦ absurd hmem (Set.notMem_empty k)) (fun _ ↦ hmeets)
      (hI.forest.nodup c g hg)
  · refine hr.sound hI.sound hfresh.parent (fun d hmem hne ↦ hmem.resolve_right ?_)
      ⟨by simp, fun _ _ x hx ↦ absurd hx (hnone x), fun _ ↦ hfresh.processed⟩
      (fun p k fwd w hp hk hpipe hw ↦ ?_) (fun k l fwd w hkl _ hp ↦ absurd hp (hleaf k l hkl))
      (.of_not_sends hnone) ?_ (hI.parent_ne_self hg)
    · rintro rfl
      exact hne rfl
    · exact ((hI.sound.passes c g p k fwd w hg hp hk hpipe hw).mono (by simp)
        (by simp)).congr rfl rfl
    · have hshaped := hI.sound.shaped c g hg
      exact ⟨hshaped.input, hshaped.processed, hshaped.height⟩

/-- **At a node that is no rule everything passes.** -/
theorem fits_of_sends_iff {L : Layout} {m : Core} (hm : L.core? f.node = some m)
    (hkind : ¬ m.IsRule) (hlooped : f.looped = false)
    (hsends : ∀ x, f.Sends x ↔ f.input.Contains x) : Fits L D h f := by
  refine ⟨fun _ _ _ x y hx _ hxy ↦ ?_, fun _ _ x hx ↦
    .inl ⟨(hsends x).1 hx, Layout.not_taken hm hkind⟩, fun hl ↦
      absurd (hlooped.symm.trans hl) (by simp)⟩
  rw [Layout.turns_of_eq_none (Layout.overwrite?_eq_none hm hkind)] at hxy
  exact (hsends y).2 (hxy ▸ hx)

/-- What arrived at a probe is what is there. -/
theorem inv_setProcessed_probe {p : Probe} (hI : Inv net ∅ (D ∪ {.stale c}))
    (hg : net.flows.find? c = some g) (hparent : g.parent ≠ none) (hlooped : g.looped = false)
    (hnormal : g.input.Normalized) (hn : net.nodeAt? g.node = some n) (hrole : n.role = .probe p) :
    Inv (withFlow net c fun f ↦ { f with processed := some f.input }) ∅ D := by
  obtain ⟨hcore, hkind⟩ := kind_of_role hn hrole
  have hnot : ¬ n.core.IsRule := by simp [Core.IsRule, hkind, Role.kind]
  have hshaped := hI.sound.shaped c g hg
  refine hI.setProcessed hg rfl hparent (fun d hmem hne _ _ ↦ hmem.resolve_right hne)
    (fits_of_sends_iff hcore hnot hlooped fun x ↦ by simp [Flow.Sends])
    (fun k l fwd w hkl hp hpipe hw ↦ ?_)
    (fun fwd w hw hsender ↦ absurd hsender (hI.layout.not_runs hcore hkind hw)) (fun _ s hs ↦ ?_)
    fun s hs r hr hrp ↦ ?_
  · obtain ⟨-, fwd', w', -, hw', hsender, -⟩ := hI.forest.came k l c g hkl hp hg
    exact absurd hsender (hI.layout.not_runs hcore hkind hw')
  · obtain rfl := Option.some.inj hs
    obtain ⟨b, htrim⟩ := hshaped.input hparent
    exact ⟨b, htrim, hnormal⟩
  · obtain rfl := Option.some.inj hs
    exact (hshaped.height r hr hrp).1

/-- What a rule has computed for a flow, put in place; the flows that came from it and its pipes are
left to be paid for. -/
theorem inv_computed {processed : Option Space} {C : Set Debt} (hI : Inv net ∅ D)
    (hD : ∀ d ∈ D, d ≠ .stale c → (∀ x, d ≠ .excess c x) → d ∈ C)
    (hg : net.flows.find? c = some g) (hparent : g.parent ≠ none)
    (hcomputes : Computes net.layout g processed) :
    Inv (withFlow net c fun f ↦ { f with processed := processed }) ∅
      (C ∪ {d | ∃ k ∈ g.children, d = .loose k} ∪ {d | ∃ fwd, d = .pending c fwd}) := by
  refine hI.setProcessed hg rfl hparent
    (fun d hmem hstale hexcess _ ↦ .inl (.inl (hD d hmem hstale hexcess))) (hcomputes.fits _ _)
    (fun k l fwd w hkl hp _ _ ↦ .of_loose (.inl (.inr ⟨k, ?_, rfl⟩)))
    (.of_pending fun fwd ↦ .inr ⟨fwd, rfl⟩) hcomputes.trim fun s hs r hr hrp ↦ ?_
  · exact hI.forest.listed k l c g hkl (Set.notMem_empty k) hp hg
  · have := hcomputes.height s hs
    have := (hI.height hg hr hrp).1
    omega

/-- A flow that came from another is not at a source. -/
theorem role_ne_source {O : Set Handle} (hI : Inv net O D) (hg : net.flows.find? c = some g)
    (hparent : g.parent ≠ none) (hn : net.nodeAt? g.node = some n) : n.role ≠ .source := by
  intro hrole
  obtain ⟨hcore, hkind⟩ := kind_of_role hn hrole
  obtain ⟨p, hp⟩ := Option.ne_none_iff_exists'.1 hparent
  obtain ⟨m, hm, hne, -⟩ := hI.forest.entered hI.layout hg hp
  rw [hcore] at hm
  exact absurd hkind (Option.some.inj hm ▸ hne)

/-- **Taking in a flow**, where `arrive` is called for what comes from it. -/
theorem inv_takeIn (harrive : Arrives arrive) : Arrives (takeIn arrive) := by
  intro net net' c g D d hl hI hg hfresh hunlisted hd
  rw [takeIn, leads_node_bind] at hl
  obtain ⟨n, hn, hl⟩ := hl
  cases hrole : n.role with
  | rule r =>
    simp only [hrole] at hl
    obtain ⟨⟨⟩, net₁, hregister, hrest⟩ := hl.bind
    obtain ⟨hI₁, hframe, hg₁⟩ := inv_register hregister hI hg hunlisted
    have hd₁ := (hframe (d + 1)).spares.depth hd (Nat.lt_succ_self d)
    obtain ⟨n₁, r₁, hn₁, hrole₁⟩ := rule_of_layout (hframe d).layout hn hrole
    rw [leads_ask_bind] at hrest
    obtain ⟨back, hback, hrest⟩ := hrest
    cases back with
    -- It has come back to a place, and goes no further.
    | some first =>
      obtain ⟨hI', hframe'⟩ := inv_markLooped hrest hI₁ hg₁ hfresh
        (meets_of_loopOf hg₁ hn₁ hrole₁ hback) hd₁
      exact ⟨hI', (hframe d).trans hframe'⟩
    -- What leaves it is computed; until it is sent, all pipes of the node are pending.
    | none =>
      obtain ⟨alive, net₂, hrecompute, hrest⟩ := hrest.bind
      obtain ⟨b, htrim⟩ := (hI₁.sound.shaped c g hg₁).input hfresh.parent
      obtain ⟨processed, rfl, rfl, hcomputes⟩ :=
        hrecompute.recompute hg₁ hn₁ hrole₁ htrim hfresh.looped
      have hI₂ := inv_computed (C := D) hI₁ (fun d hmem hne _ ↦ hmem.resolve_right hne) hg₁
        hfresh.parent hcomputes
      rw [hfresh.children] at hI₂
      have hframe₂ : Frame d net₁ (withFlow net₁ c fun f ↦ { f with processed := processed }) :=
        frame_withFlow (fun _ ↦ rfl) hd₁
      have hr := Replaces.modify (k := fun f : Flow ↦ { f with processed := processed }) hg₁ rfl
      have hI₃ : Inv (withFlow net₁ c fun f ↦ { f with processed := processed }) ∅
          (D ∪ {d | ∃ fwd, d = .pending c fwd}) := hI₂.mono (by simp)
      -- If nothing leaves, nothing can be pending.
      rcases hrest.ite with ⟨-, hrest⟩ | ⟨hdead, hrest⟩
      · obtain ⟨hI', hframe'⟩ := inv_sendAll
          (f := { g with processed := processed }) harrive hrest hI₃ hr.after (hr.depth.2 hd₁)
        exact ⟨hI', (hframe d).trans (hframe₂.trans (hframe'.mono (Nat.le_succ d)))⟩
      · obtain ⟨-, rfl⟩ := leads_pure.1 hrest
        refine ⟨hI₃.withSound (hI₃.sound.paySent (h := c) (fun d hmem hne ↦ hmem.resolve_right ?_)
          fun k hk ↦ .of_not_sends ?_), (hframe d).trans hframe₂⟩
        · rintro ⟨fwd, rfl⟩
          exact hne fwd rfl
        · obtain rfl := Option.some.inj (hr.after.symm.trans hk)
          exact Flow.not_sends (by simpa using hdead)
  | source =>
    exact absurd hrole (role_ne_source hI hg hfresh.parent hn)
  | probe p =>
    simp only [hrole] at hl
    obtain ⟨⟨⟩, net₁, hregister, hrest⟩ := hl.bind
    obtain ⟨hI₁, hframe, hg₁⟩ := inv_register hregister hI hg hunlisted
    have hd₁ := (hframe (d + 1)).spares.depth hd (Nat.lt_succ_self d)
    obtain ⟨n₁, p₁, hn₁, hrole₁⟩ := probe_of_layout (hframe d).layout hn hrole
    rw [leads_updateFlow_bind] at hrest
    have hI₂ :=
      inv_setProcessed_probe hI₁ hg₁ hfresh.parent hfresh.looped hfresh.normalized hn₁ hrole₁
    have hq := quiet_notify (map_key_cores net₁ ▸ hI₁.layout.nodup) hrest
    have hframe₂ : Frame d net₁ (withFlow net₁ c fun f ↦ { f with processed := some f.input }) :=
      frame_withFlow (fun _ ↦ rfl) hd₁
    exact ⟨hq.inv hI₂, (hframe d).trans (hframe₂.trans (hq.frame d))⟩

/-- A visit keeps what its body keeps. -/
theorem inv_visit {body : Engine Unit} {O : Set Handle} {D' : Set Debt}
    (hl : Leads (visit body) net () net') (hI : Inv net O D)
    (hbody : ∀ b mid, Leads body { net with budget := b } () mid →
      Inv { net with budget := b } O D → Inv mid ∅ D' ∧ Frame d { net with budget := b } mid) :
    Inv net' ∅ D' ∧ Frame d net net' := by
  obtain ⟨before, after, mid, hrun, rfl⟩ := hl.visit
  obtain ⟨hI', hframe⟩ := hbody before mid hrun ((Quiet.budget net before).inv hI)
  exact ⟨(Quiet.budget mid after).inv hI', ((Quiet.budget net before).frame d).trans
    (hframe.trans ((Quiet.budget mid after).frame d))⟩

/-- **However deep the visits may be nested**, an arrival that comes to its end has paid for the
flow. -/
theorem arriveWithin_arrives (room : Nat) : Arrives (arriveWithin room) := by
  induction room with
  | zero =>
    intro net net' c g D d hl
    obtain ⟨⟨⟩, mid, -, hdeep⟩ := hl.bind
    exact absurd hdeep not_leads_tooDeep
  | succ room ih =>
    intro net net' c g D d hl hI hg hfresh hunlisted hd
    exact inv_visit hl hI fun b mid hrun hI' ↦ inv_takeIn ih _ mid c g D d hrun hI' hg hfresh
      ⟨hunlisted.roster, hunlisted.children⟩ hd

/-- Arriving with as much room as the limit allows. -/
theorem arrive_arrives : Arrives Engine.arrive := by
  intro net net' c g D d hl
  rw [Engine.arrive, leads_room_bind] at hl
  exact arriveWithin_arrives _ net net' c g D d hl

/-! ### All flows of a node -/

/-- The handle names a flow at the node, or did so once. -/
def At (F : Arena Flow) (key : NodeKey) (h : Handle) : Prop := Names F (fun f ↦ f.node = key) h

/-- Flows do not change their nodes. -/
theorem At.stable {F F' : Arena Flow} {key : NodeKey} (ha : At F key h) (hs : Stable F F') :
    At F' key h :=
  Names.stable ha hs fun _ _ hway hn ↦ (Flow.node_eq hway).trans hn

theorem At.node {F : Arena Flow} {key : NodeKey} (ha : At F key h) (hf : F.find? h = some f) :
    f.node = key :=
  Names.live ha hf

/-- The flows of a node are the ones on its list. -/
theorem at_of_mem_flows (hI : Inv net ∅ D) {key : NodeKey} (hn : net.nodeAt? key = some n) :
    (∀ h ∈ n.flows, At net.flows key h) ∧
      ∀ h f, net.flows.find? h = some f → f.node = key → h ∈ n.flows := by
  have hroster : net.roster key = n.flows := Network.tied_of_nodeAt? hn
  refine ⟨fun h hh ↦ .inr (hI.listed.only key h (hroster ▸ hh)), fun h f hf hnode ↦ ?_⟩
  have hmem := hI.listed.all h f hf (Set.notMem_empty h)
  rwa [hnode, hroster] at hmem

/-- **Sending the flows of a node down a pipe** pays for the pipe. -/
theorem inv_sendFlows {key : NodeKey} (hl : Leads (sendFlows key fwd) net () net')
    (hI : Inv net ∅ (D ∪ {e | ∃ h, e = .pending h fwd})) (hw : net.layout.Runs fwd w)
    (hsender : w.sender = key) : Inv net' ∅ D ∧ Frame 1 net net' := by
  rw [sendFlows, leads_node_bind] at hl
  obtain ⟨n, hn, hl⟩ := hl
  obtain ⟨hat, hall⟩ := at_of_mem_flows hI hn
  have hI₀ : Inv net ∅ (D ∪ {e | ∃ h ∈ n.flows, e = .pending h fwd}) := by
    refine hI.withSound (hI.sound.voidPipes ?_)
    rintro e (he | ⟨h, rfl⟩) hpipe
    · exact .inl he
    · obtain ⟨f, w', hf, hw', hsender'⟩ := hpipe h fwd rfl
      obtain rfl := hw.unique hw'
      exact .inr ⟨h, hall h f hf (hsender'.symm.trans hsender), rfl⟩
  refine inv_forM_pay (fun _ h ↦ {.pending h fwd}) hl hI₀ (fun _ he _ ↦ he) ?_
  intro h hh mid mid' D hframe hstep hImid
  rw [leads_flow?_bind] at hstep
  rcases hstep.ite with ⟨hany, hrun⟩ | ⟨hany, hrun⟩
  · obtain ⟨f, hf, -⟩ := (Option.any_eq_true _ _).1 hany
    have hnode := ((hat h hh).stable hframe.stable).node hf
    obtain ⟨d, hd⟩ := hImid.depth hf
    obtain ⟨hI', hframe'⟩ := inv_send (f := f) arrive_arrives (hnode ▸ hrun) hImid hf hd
      (hframe.layout ▸ hw) (hsender.trans hnode.symm)
    exact ⟨hI', hframe'.mono (Nat.le_add_left 1 d)⟩
  · -- a flow that does not go on has nothing to send
    obtain ⟨-, rfl⟩ := leads_pure.1 hrun
    refine ⟨hImid.withSound (hImid.sound.settle fun f w' hf _ _ ↦ .inr fun x hx ↦ ?_), .refl _ _⟩
    obtain ⟨s, hs, hxs⟩ := hx
    have hgoes : ¬ (f.looped = false ∧ f.isAlive = true) := by
      simpa [hf, Option.any_some] using hany
    refine absurd ⟨?_, ?_⟩ hgoes
    · by_contra hlooped
      have := (hImid.sound.fits h f hf).looped (by simpa using hlooped)
      exact absurd (this.symm.trans hs) (by simp)
    · rw [Flow.isAlive, hs, Option.any_some, Bool.not_eq_true']
      by_contra hempty
      exact Space.not_contains_of_isEmpty (by simpa using hempty) hxs

/-- **Pulling the flows of the neighbours** pays for all pipes that lead to a node. -/
theorem inv_pull {key : NodeKey} (hl : Leads (pull key) net () net')
    (hI : Inv net ∅ (D ∪ {e | ∃ h fwd w, e = .pending h fwd ∧ net.layout.Runs fwd w ∧
      w.receiver = key})) : Inv net' ∅ D ∧ Frame 1 net net' := by
  rw [pull, leads_node_bind] at hl
  obtain ⟨n, hn, hl⟩ := hl
  have hprev : net.layout.prev key = n.prev := Network.tied_of_nodeAt? hn
  refine inv_forM_pay
    (fun _ back ↦ {e | ∃ h, ∃ b : Pipe, net.pipes.find? back = some b ∧ e = .pending h b.reverse})
    hl (hI.mono ?_) (fun _ he _ ↦ he) ?_
  · rintro e (he | ⟨h, fwd, w, rfl, hw, hreceiver⟩)
    · exact .inl he
    · obtain ⟨back, a, b, m, m', hj, rfl⟩ := hI.layout.joins hw
      have hback := hj.prev
      rw [show b.node = key from hreceiver, hprev] at hback
      exact .inr ⟨back, hback, h, b, hj.rear, by rw [hj.obverse]⟩
  · intro back hback mid mid' D hframe hstep hImid
    obtain ⟨fwd, a, b, m, m', hj, -⟩ := hI.layout.prev key back (hprev ▸ hback)
    have hpipes : mid.pipes = net.pipes := congrArg Layout.pipes hframe.layout
    have hrear : net.pipes.find? back = some b := hj.rear
    have hfront : net.pipes.find? fwd = some a := hj.front
    rw [leads_pipe?_bind, hpipes, hrear] at hstep
    simp only [leads_pipe_bind, hpipes, hj.obverse, hfront, Option.some.injEq,
      exists_eq_left'] at hstep
    have hruns := hj.runs
    rw [← hframe.layout] at hruns
    refine inv_sendFlows hstep (hImid.mono (Set.union_subset_union_right _ ?_)) hruns rfl
    rintro e ⟨h, b', hb', rfl⟩
    obtain rfl := Option.some.inj (hrear.symm.trans hb')
    exact ⟨h, by rw [hj.obverse]⟩

end Engine

end HeaderFlow
