import HeaderFlow.Proofs.Network.SafeArrival

/-!
# Refreshing is safe

The second half of propagation: flows that are there are computed anew, and what came from them is
refreshed in turn. **Every visit starts on a firm network**, so a visit that is broken off leaves a
firm network behind, whatever headers are wrong in it.

The loss that a flow is told of has the length of the headers. That it is one of headers which the
flow may not keep is asked for because it is what the invariant of the flows rests on.

A list of children is read before the first of them is refreshed, and refreshing one may drop
another. So nothing is asked of the others but that their handles were once given out for flows that
came from this one (`Came.knows`).
-/

namespace HeaderFlow.Engine

open Checked (Gives gives_ok)

variable {net net' : Network} {n : Nat} {D : Set Debt} {F : Arena Flow} {h c fwd : Handle}
  {f g : Flow} {key : NodeKey} {m : Node} {w : Wire} {side : Pipe} {r : Rule} {processed : Space}
  {loss : Pattern} {o : Option Pattern} {arrive : NodeKey → Handle → Engine Unit}
  {refresh : Handle → Option Pattern → Engine Unit}

/-- The loss has `n` bytes and is of headers that the flow does not have or may not keep. Without
one, the flow may be computed anew. -/
structure Admits (L : Layout) (n : Nat) (f : Flow) (o : Option Pattern) : Prop where
  renewable : o = none → Renewable L f
  loss : ∀ p, o = some p → p.bytes = n ∧ ∀ x, p.Matches x → f.input.Contains x →
    L.Taken f.node f.port x

/-- What is asked of a way of refreshing a flow. -/
def SafelyRefreshes (n : Nat) (refresh : Handle → Option Pattern → Engine Unit) : Prop :=
  ∀ net h f o, net.Firm → net.flows.find? h = some f → Admits net.layout n f o →
    Safe n (refresh h o) net

/-- A flow that came from another is known, or was once. -/
theorem Came.knows (hc : Came F h c) : F.Knows c :=
  hc.imp_right fun ⟨g, hg, _⟩ ↦ ⟨g, hg⟩

theorem At.knows (ha : At F key h) : F.Knows h := ha.imp_right fun ⟨g, hg, _⟩ ↦ ⟨g, hg⟩

/-! ### Flows that came from a flow

The children are read off before the first one is changed. Each of them is looked up again before it
is changed, and a child that is past is skipped, so no lookup fails. -/

/-- **Pushing a loss down to a child is safe.** -/
theorem safe_pushLoss (hrefresh : SafelyRefreshes n refresh) (hfirm : net.Firm)
    (hf : net.flows.find? h = some f) (hbytes : loss.bytes = n)
    (hlost : ∀ x, loss.Matches x → ¬ f.Sends x) (hcame : Came net.flows h c) :
    Safe n (pushLoss refresh loss c) net := by
  refine safe_flow?_bind hcame.knows ?_
  cases hg : net.flows.find? c with
  | none => exact safe_pure
  | some g =>
    have hparent := hcame.parent hg
    obtain ⟨f', fwd, w, hf', hpipe, hw, -, -⟩ := hfirm.inv.forest.wire hg hparent
    obtain rfl := Option.some.inj (hf.symm.trans hf')
    obtain ⟨side, hside, hpattern⟩ := hw.pipe
    have hside : net.pipes.find? fwd = some side := hside
    refine safe_of_fit ?_
    rintro rfl hfit
    simp only [hpipe]
    refine safe_pipe?_bind ?_
    rw [hside]
    refine safe_check_bind (Pattern.gives_intersect (hfit.pipes fwd side hside) hbytes)
      fun piped hpiped hover ↦ ?_
    cases piped with
    | none => exact safe_pure
    | some piped =>
      have hboth : ∀ x, piped.Matches x ↔ w.pattern.Matches x ∧ loss.Matches x := by
        rw [← hpattern]
        exact (Pattern.intersect_spec hpiped).1 piped rfl
      refine safe_check_bind ((hfit.flows c g hg).input.cut (hover piped rfl))
        fun input hinput hinputOver ↦ ?_
      refine safe_bind (safe_updateFlow (.inr ⟨g, hg⟩) fun _ _ hf ↦ ⟨hinputOver, hf.processed⟩)
        fun _ mid hl ↦ ?_
      obtain rfl := leads_updateFlow.1 hl
      have hI := inv_cutInput (D := Set.univ)
        (hfirm.inv.mono fun _ _ ↦ .inl trivial) hf hlost hg hparent hpipe hw hboth hinput
      refine hrefresh _ c { g with input := input }
        _ (hfirm.propagate (hI.mono fun _ _ ↦ trivial) rfl)
        (Arena.find?_modify_self hg) ⟨by simp, ?_⟩
      rintro _ ⟨⟩
      exact ⟨hover piped rfl, fun x hx hin ↦ absurd hx ((Space.contains_of_cut hinput).1 hin).2⟩

/-- A loss is pushed down to all that came from the flow. -/
theorem safe_forM_pushLoss {l : List Handle} (hrefreshes : Refreshes refresh)
    (hrefresh : SafelyRefreshes n refresh) (hfirm : net.Firm) (hf : net.flows.find? h = some f)
    (hbytes : loss.bytes = n) (hlost : ∀ x, loss.Matches x → ¬ f.Sends x)
    (hcame : ∀ c ∈ l, Came net.flows h c) : Safe n (l.forM (pushLoss refresh loss)) net := by
  obtain ⟨d, hd⟩ := hfirm.inv.depth hf
  refine safe_forM (I := fun _ mid ↦ mid.Firm ∧ Frame (d + 1) net mid) ⟨hfirm, .refl _ _⟩ ?_
  rintro c - mid hmem ⟨hmid, hframe⟩
  obtain ⟨f', hf', halike⟩ := hframe.spares h d f hd (Nat.lt_succ_self d) hf
  have hlost' : ∀ x, loss.Matches x → ¬ f'.Sends x := fun x hx ↦ mt halike.sends.1 (hlost x hx)
  have hcame' := (hcame c hmem).stable hframe.stable
  refine ⟨safe_pushLoss hrefresh hmid hf' hbytes hlost' hcame', fun mid' hl ↦ ?_⟩
  obtain ⟨hI, hframe'⟩ := inv_pushLoss (D := Set.univ) hrefreshes hl
    (hmid.inv.mono fun _ _ ↦ .inl trivial) hf' hlost' hcame'
    (hframe.spares.depth hd (Nat.lt_succ_self d))
  exact ⟨hmid.propagate hI hframe'.layout, hframe.trans hframe'⟩

/-- **Renewing a child is safe.** -/
theorem safe_renewChild (hrefresh : SafelyRefreshes n refresh) (hfirm : net.Firm)
    (hf : net.flows.find? h = some f) (hsends : f.processed = some processed)
    (hcame : Came net.flows h c) : Safe n (renewChild refresh processed c) net := by
  refine safe_flow?_bind hcame.knows ?_
  cases hg : net.flows.find? c with
  | none => exact safe_pure
  | some g =>
    have hparent := hcame.parent hg
    obtain ⟨f', fwd, w, hf', hpipe, hw, -, -⟩ := hfirm.inv.forest.wire hg hparent
    obtain rfl := Option.some.inj (hf.symm.trans hf')
    obtain ⟨side, hside, -⟩ := hw.pipe
    have hside : net.pipes.find? fwd = some side := hside
    refine safe_of_fit ?_
    rintro rfl hfit
    simp only [hpipe]
    refine safe_pipe?_bind ?_
    rw [hside]
    refine safe_check_bind (gives_pipeOut ((hfit.flows h f hf).processed processed hsends)
      (hfit.pipes fwd side hside)) fun out hout hover ↦ ?_
    split
    · exact safe_bind (safe_removeFlow hfirm.inv (.inr ⟨g, hg⟩)) fun _ _ _ ↦ safe_pure
    · refine safe_bind (safe_updateFlow (.inr ⟨g, hg⟩) fun _ _ hf ↦ ⟨hover, hf.processed⟩)
        fun _ mid hl ↦ ?_
      obtain rfl := leads_updateFlow.1 hl
      have hI := inv_renewInput (D := Set.univ) (hfirm.inv.mono fun _ _ ↦ .inl trivial) hf hsends hg
        hparent hpipe hside hout
      refine safe_bind (hrefresh _ c { g with input := out } _
        (hfirm.propagate (hI.mono fun _ _ ↦ trivial) rfl) (Arena.find?_modify_self hg)
        ⟨fun _ ↦ .inr (pipeOut_spec hout).2.2.1, ?_⟩) fun _ _ _ ↦ safe_pure
      rintro _ ⟨⟩

/-- The children of a flow are renewed one after the other. -/
theorem safe_renewChildren {cs : List Handle} (hrefreshes : Refreshes refresh)
    (hrefresh : SafelyRefreshes n refresh) (hfirm : net.Firm) (hf : net.flows.find? h = some f)
    (hsends : f.processed = some processed) (hcame : ∀ c ∈ cs, Came net.flows h c) :
    Safe n (renewChildren refresh processed cs) net := by
  induction cs generalizing net f with
  | nil => exact safe_pure
  | cons c cs ih =>
    have hhead := hcame c List.mem_cons_self
    refine safe_bind (safe_renewChild hrefresh hfirm hf hsends hhead) fun one mid hone ↦ ?_
    obtain ⟨d, hd⟩ := hfirm.inv.depth hf
    have hopen : Inv net ∅ (Set.univ ∪ {.loose c} ∪ unused h []) :=
      hfirm.inv.mono fun _ _ ↦ .inl (.inl trivial)
    obtain ⟨hI, hframe⟩ := inv_renewChild hrefreshes hone hopen hf hsends hhead hd
    obtain ⟨f', hf', halike⟩ := hframe.spares h d f hd (Nat.lt_succ_self d) hf
    refine safe_bind (ih (hfirm.propagate (hI.mono fun _ _ ↦ trivial) hframe.layout) hf'
      (halike.processed.trans hsends) fun c' hc' ↦
        (hcame c' (List.mem_cons_of_mem _ hc')).stable hframe.stable) fun _ _ _ ↦ safe_pure

/-- **Renewing everything that came from a flow is safe.** -/
theorem safe_renewAll (harrives : Arrives arrive) (hrefreshes : Refreshes refresh)
    (harrive : SafelyArrives n arrive) (hrefresh : SafelyRefreshes n refresh) (hfirm : net.Firm)
    (hf : net.flows.find? h = some f) (hsends : f.processed = some processed) :
    Safe n (renewAll arrive refresh h f processed) net := by
  have hcame := came_of_children hfirm.inv hf
  refine safe_bind (safe_renewChildren hrefreshes hrefresh hfirm hf hsends hcame)
    fun used mid hrenew ↦ ?_
  obtain ⟨d, hd⟩ := hfirm.inv.depth hf
  have hopen : Inv net ∅ (Set.univ ∪ {d | ∃ c ∈ f.children, d = .loose c} ∪ unused h []) :=
    hfirm.inv.mono fun _ _ ↦ .inl (.inl trivial)
  obtain ⟨hI, hframe⟩ := inv_renewChildren hrefreshes hrenew hopen hf hsends hcame hd
  have hmid : mid.Firm := hfirm.propagate (hI.mono fun _ _ ↦ trivial) hframe.layout
  obtain ⟨f', hf', halike⟩ := hframe.spares h d f hd (Nat.lt_succ_self d) hf
  obtain ⟨m, hm⟩ := hmid.inv.node hf'
  have hnode := Flow.node_eq halike.way
  rw [← hnode]
  refine safe_node_bind hm (safe_forM_next harrives harrive (fun fwd ↦ ?_) hmid hm hf')
  split
  · exact .inl ⟨_, rfl⟩
  · exact .inr rfl

/-! ### Whole visits

A visit is safe with safe ways of arriving and refreshing, and the induction on the room puts the
pieces together. -/

/-- **Going on with a flow is safe**, whether it has headers left or not. -/
theorem safe_goOn {alive : Bool} (harrives : Arrives arrive) (hrefreshes : Refreshes refresh)
    (harrive : SafelyArrives n arrive) (hrefresh : SafelyRefreshes n refresh) (hfirm : net.Firm)
    (hf : net.flows.find? h = some f)
    (hloss : ∀ p, o = some p → p.bytes = n ∧ ∀ x, p.Matches x → ¬ f.Sends x) :
    Safe n (goOn arrive refresh h o alive) net := by
  rw [goOn]
  split
  · refine safe_flow_bind hf ?_
    cases o with
    | some loss =>
      obtain ⟨hbytes, hlost⟩ := hloss loss rfl
      exact safe_forM_pushLoss hrefreshes hrefresh hfirm hf hbytes hlost
        (came_of_children hfirm.inv hf)
    | none =>
      cases hp : f.processed with
      | none => exact safe_pure
      | some processed => exact safe_renewAll harrives hrefreshes harrive hrefresh hfirm hf hp
  · refine safe_bind (safe_dropBelow (.inr ⟨f, hf⟩) (tidy_of_inv hfirm.inv)) fun _ mid hl ↦ ?_
    obtain ⟨d, hd⟩ := hfirm.inv.depth hf
    obtain ⟨-, -, hf', -⟩ := inv_dropBelow hl hfirm.inv hf hd
    exact safe_alterFlow hf' fun hfit ↦ ⟨hfit.input, by simp⟩

/-- Taking a loss out of what leaves a flow is safe if lengths agree. -/
theorem safe_lose (hf : net.flows.find? h = some f) (hprocessed : processed.Over n)
    (hbytes : loss.bytes = n) : Safe n (lose h processed loss) net := by
  refine safe_of_fit ?_
  rintro rfl -
  refine safe_check_bind ((hprocessed.cut hbytes).bind fun _ hs ↦ hs.compact none)
    fun left _ hleft ↦ ?_
  exact safe_bind (safe_updateFlow (.inr ⟨f, hf⟩) fun _ _ hf ↦
    ⟨hf.input, fun s hs ↦ Option.some.inj hs ▸ hleft⟩) fun _ _ _ ↦ safe_pure

/-- **Looking at a flow anew at a rule is safe.** -/
theorem safe_reconsiderAtRule (harrives : Arrives arrive) (hrefreshes : Refreshes refresh)
    (harrive : SafelyArrives n arrive) (hrefresh : SafelyRefreshes n refresh) (hfirm : net.Firm)
    (hf : net.flows.find? h = some f) (hm : net.nodeAt? f.node = some m) (hr : m.role = .rule r)
    (hparent : f.parent ≠ none) (hloss : Admits net.layout n f o) :
    Safe n (reconsiderAtRule arrive refresh h f r o) net := by
  rw [reconsiderAtRule]
  split
  · exact safe_pure
  · rename_i hlooped
    have hlooped : f.looped = false := by simpa using hlooped
    split
    · refine safe_bind (safe_recompute hfirm.ordered hm hf) fun alive mid hrecompute ↦ ?_
      obtain ⟨b, htrim⟩ := (hfirm.inv.sound.shaped h f hf).input hparent
      obtain ⟨sent, rfl, -, hcomputes⟩ := hrecompute.recompute hf hm hr htrim hlooped
      exact safe_goOn (f := { f with processed := sent }) harrives hrefreshes harrive hrefresh
        (firm_computed hfirm hf hparent hcomputes) (Arena.find?_modify_self hf) (by simp)
    · rename_i loss ho
      obtain ⟨how, rfl⟩ : r.overwrite = none ∧ o = some loss := by
        cases hw : r.overwrite <;> simp_all
      obtain ⟨hbytes, htaken⟩ := hloss.loss loss rfl
      cases hp : f.processed with
      | none => exact safe_pure
      | some processed =>
        refine safe_of_fit ?_
        rintro rfl hfit
        refine safe_bind (safe_lose hf ((hfit.flows h f hf).processed processed hp) hbytes)
          fun alive mid hlose ↦ ?_
        obtain ⟨d, hd⟩ := hfirm.inv.depth hf
        obtain ⟨left, hI, hframe, -, -, hf', hlost⟩ := inv_lose (D := Set.univ) hlose
          (hfirm.inv.mono fun _ _ ↦ .inl trivial) hf hp hparent
          ((overwrite?_of_role hm hr).trans how) hlooped htaken hd
        refine safe_goOn harrives hrefreshes harrive hrefresh
          (hfirm.propagate (hI.mono fun _ _ ↦ trivial) hframe.layout) hf' ?_
        rintro _ ⟨⟩
        refine ⟨hbytes, fun x hx hsends ↦ ?_⟩
        obtain ⟨s, hs, hxs⟩ := hsends
        exact hlost x (Option.some.inj hs ▸ hxs) hx

/-- **Looking at a flow anew at a probe is safe.** -/
theorem safe_reconsiderAtProbe (hf : net.flows.find? h = some f) (hloss : Admits net.layout n f o) :
    Safe n (reconsiderAtProbe h f o) net := by
  refine safe_of_fit ?_
  rintro rfl hfit
  cases o with
  | none =>
    exact safe_updateFlow (.inr ⟨f, hf⟩) fun _ _ hf ↦
      ⟨hf.input, fun s hs ↦ Option.some.inj hs ▸ hf.input⟩
  | some loss =>
    cases hp : f.processed with
    | none =>
      simp only [reconsiderAtProbe, hp]
      exact safe_pure
    | some processed =>
      simp only [reconsiderAtProbe, hp]
      exact safe_discard (safe_lose hf ((hfit.flows h f hf).processed processed hp)
        (hloss.loss loss rfl).1)

/-- The flow is still there. -/
theorem Leads.reconsiderAtProbe (hl : Leads (Engine.reconsiderAtProbe h f o) net () net')
    (hf : net.flows.find? h = some f) : ∃ f', net'.flows.find? h = some f' := by
  cases o with
  | none =>
    simp only [Engine.reconsiderAtProbe, leads_updateFlow] at hl
    subst hl
    exact ⟨_, Arena.find?_modify_self hf⟩
  | some loss =>
    cases hp : f.processed with
    | none =>
      simp only [Engine.reconsiderAtProbe, hp] at hl
      exact ⟨f, (leads_pure.1 hl).2 ▸ hf⟩
    | some processed =>
      simp only [Engine.reconsiderAtProbe, hp] at hl
      obtain ⟨_, hl⟩ := hl.discard
      rw [Engine.lose, leads_check_bind] at hl
      obtain ⟨left, -, hl⟩ := hl
      rw [leads_updateFlow_bind] at hl
      obtain ⟨-, rfl⟩ := leads_pure.1 hl
      exact ⟨_, Arena.find?_modify_self hf⟩

/-- **Computing anew what a flow sends is safe**, where `arrive` and `refresh` are called for what
comes from it. -/
theorem safe_reconsider (harrives : Arrives arrive) (hrefreshes : Refreshes refresh)
    (harrive : SafelyArrives n arrive) (hrefresh : SafelyRefreshes n refresh) :
    SafelyRefreshes n (reconsider arrive refresh) := by
  intro net h f o hfirm hf hloss
  refine safe_flow?_bind (.inr ⟨f, hf⟩) ?_
  obtain ⟨m, hm⟩ := hfirm.inv.node hf
  rw [hf]
  refine safe_node_bind hm ?_
  have hroot : f.parent = none → m.role = .source := fun hp ↦
    role_of_kind
      ((hfirm.inv.forest.isRoot_iff hfirm.inv.layout hf (Layout.core?_of_nodeAt? hm)).1 hp)
  cases hrole : m.role with
  | source => exact safe_pure
  | rule r =>
    have hparent : f.parent ≠ none := fun hp ↦ absurd (hroot hp) (by simp [hrole])
    exact safe_reconsiderAtRule harrives hrefreshes harrive hrefresh hfirm hf hm hrole hparent hloss
  | probe p =>
    have hparent : f.parent ≠ none := fun hp ↦ absurd (hroot hp) (by simp [hrole])
    refine safe_bind (safe_reconsiderAtProbe hf hloss) fun _ mid hl ↦ ?_
    obtain ⟨d, hd⟩ := hfirm.inv.depth hf
    obtain ⟨hI, hframe⟩ := inv_reconsiderAtProbe (D := Set.univ) hl
      (hfirm.inv.mono fun _ _ ↦ .inl trivial) hf hm hrole hparent hloss.renewable
      (fun p hp ↦ (hloss.loss p hp).2) hd
    obtain ⟨m', hm', -⟩ := node_of_layout hframe.layout hm
    obtain ⟨f', hf'⟩ := hl.reconsiderAtProbe hf
    exact safe_notify_changed hI hf' hm'

/-- **However deep the visits may be nested, a refresh is safe.** -/
theorem refreshWithin_safe (room : Nat) : SafelyRefreshes n (refreshWithin room) := by
  induction room with
  | zero =>
    intro net h f o hfirm _ _
    refine safe_bind (safe_enter (braced_of_firm hfirm)) fun _ mid hl ↦ ?_
    obtain ⟨b, rfl⟩ := hl.enter
    exact safe_tooDeep (braced_of_firm (hfirm.quiet (.budget net b)))
  | succ room ih =>
    intro net h f o hfirm hf hloss
    refine safe_visit (braced_of_firm hfirm) fun b ↦ ?_
    exact safe_reconsider (arriveWithin_arrives room) (refreshWithin_refreshes room)
      (arriveWithin_safe room) ih _ h f o (hfirm.quiet (.budget net b)) hf hloss

/-- Refreshing with as much room as the limit allows. -/
theorem refresh_safe : SafelyRefreshes n Engine.refresh := fun net h f o hfirm hf hloss ↦
  safe_room_bind (refreshWithin_safe _ net h f o hfirm hf hloss)

/-! ### All flows of a node -/

/-- **Sending the flows of a node down a pipe is safe.** -/
theorem safe_sendFlows (hfirm : net.Firm) (hw : net.layout.Runs fwd w) (hsender : w.sender = key) :
    Safe n (sendFlows key fwd) net := by
  obtain ⟨s, -, -, hs, -⟩ := hfirm.inv.layout.ends hw
  obtain ⟨m, hm, -⟩ := exists_nodeAt? (hsender ▸ hs)
  refine safe_node_bind hm ?_
  obtain ⟨hat, -⟩ := at_of_mem_flows hfirm.inv hm
  refine safe_forM (I := fun _ mid ↦ mid.Firm ∧ Frame 1 net mid) ⟨hfirm, .refl _ _⟩ ?_
  rintro h - mid hh ⟨hmid, hframe⟩
  have hat := (hat h hh).stable hframe.stable
  refine ⟨safe_flow?_bind hat.knows ?_, fun mid' hl ↦ ?_⟩
  · split
    · rename_i hany
      obtain ⟨f, hf, -⟩ := (Option.any_eq_true _ _).1 hany
      rw [← hat.node hf]
      exact safe_send arrive_safe hmid hf (hframe.layout ▸ hw) (hsender.trans (hat.node hf).symm)
    · exact safe_pure
  · rw [leads_flow?_bind] at hl
    rcases hl.ite with ⟨hany, hl⟩ | ⟨-, hl⟩
    · obtain ⟨f, hf, -⟩ := (Option.any_eq_true _ _).1 hany
      obtain ⟨d, hd⟩ := hmid.inv.depth hf
      obtain ⟨hI, hframe'⟩ := inv_send (f := f) (D := Set.univ) arrive_arrives (hat.node hf ▸ hl)
        (hmid.inv.mono fun _ _ ↦ .inl trivial) hf hd (hframe.layout ▸ hw)
        (hsender.trans (hat.node hf).symm)
      exact ⟨hmid.propagate hI hframe'.layout, hframe.trans (hframe'.mono (Nat.le_add_left 1 d))⟩
    · obtain ⟨-, rfl⟩ := leads_pure.1 hl
      exact ⟨hmid, hframe⟩

/-- **Pulling the flows of the neighbours is safe.** -/
theorem safe_pull (hfirm : net.Firm) (hm : net.nodeAt? key = some m) : Safe n (pull key) net := by
  refine safe_node_bind hm ?_
  refine safe_forM (I := fun _ mid ↦ mid.Firm ∧ Frame 1 net mid) ⟨hfirm, .refl _ _⟩ ?_
  have hprev : net.layout.prev key = m.prev := Network.tied_of_nodeAt? hm
  rintro back - mid hback ⟨hmid, hframe⟩
  rw [← hprev, ← hframe.layout] at hback
  obtain ⟨fwd, a, b, s, t, hj, -⟩ := hmid.inv.layout.prev key back hback
  have hrear : mid.pipes.find? back = some b := hj.rear
  have hfront : mid.pipes.find? fwd = some a := hj.front
  refine ⟨safe_pipe?_bind ?_, fun mid' hl ↦ ?_⟩
  · rw [hrear]
    refine safe_pipe_bind (hj.obverse ▸ hfront) ?_
    rw [hj.obverse]
    exact safe_sendFlows hmid hj.runs rfl
  · rw [leads_pipe?_bind, hrear] at hl
    simp only [leads_pipe_bind, hj.obverse, hfront, Option.some.injEq, exists_eq_left'] at hl
    obtain ⟨hI, hframe'⟩ := inv_sendFlows (D := Set.univ) hl (hmid.inv.mono fun _ _ ↦ .inl trivial)
      hj.runs rfl
    exact ⟨hmid.propagate hI hframe'.layout, hframe.trans hframe'⟩

/-- **Refreshing the flows of a node that came in by some ports is safe.** -/
theorem safe_refreshFlows {ports : PortSet} (hfirm : net.Firm) (hm : net.nodeAt? key = some m)
    (hrule : o = none → ∃ k, net.layout.core? key = some k ∧ k.IsRule)
    (hloss : ∀ p, o = some p → p.bytes = n ∧ ∀ port ∈ ports.toList, ∀ x, p.Matches x →
      net.layout.Taken key port x) : Safe n (refreshFlows key ports o) net := by
  refine safe_node_bind hm ?_
  obtain ⟨hat, -⟩ := at_of_mem_flows hfirm.inv hm
  refine safe_forM
    (I := fun _ mid ↦ mid.Firm ∧ mid.layout = net.layout ∧ Stable net.flows mid.flows)
    ⟨hfirm, rfl, .refl _⟩ ?_
  rintro h - mid hh ⟨hmid, hlayout, hstable⟩
  have hat := (hat h hh).stable hstable
  have hadmits : ∀ f, mid.flows.find? h = some f → ports.contains f.port = true →
      Admits mid.layout n f o := fun f hf hport ↦ by
    refine ⟨fun ho ↦ .inl ?_, fun p hp ↦ ?_⟩ <;> rw [hlayout, hat.node hf]
    · exact hrule ho
    · exact ⟨(hloss p hp).1, fun x hx _ ↦ (hloss p hp).2 f.port (PortSet.contains_iff.1 hport) x hx⟩
  refine ⟨safe_flow?_bind hat.knows ?_, fun mid' hl ↦ ?_⟩
  · split
    · rename_i hany
      obtain ⟨f, hf, hport⟩ := (Option.any_eq_true _ _).1 hany
      exact refresh_safe mid h f o hmid hf (hadmits f hf hport)
    · exact safe_pure
  · rw [leads_flow?_bind] at hl
    rcases hl.ite with ⟨hany, hl⟩ | ⟨-, hl⟩
    · obtain ⟨f, hf, hport⟩ := (Option.any_eq_true _ _).1 hany
      obtain ⟨d, hd⟩ := hmid.inv.depth hf
      obtain ⟨hI, hframe⟩ := refresh_refreshes mid mid' h f o Set.univ d hl
        (hmid.inv.mono fun _ _ ↦ .inl trivial) hf (hadmits f hf hport).renewable
        (fun p hp ↦ ((hadmits f hf hport).loss p hp).2) hd
      exact ⟨hmid.propagate hI hframe.layout, hframe.layout.trans hlayout,
        hstable.trans hframe.stable⟩
    · obtain ⟨-, rfl⟩ := leads_pure.1 hl
      exact ⟨hmid, hlayout, hstable⟩

/-- **Sending out the root of a source is safe.** -/
theorem safe_arriveRoot (hfirm : net.Firm) (hf : net.flows.find? h = some f)
    (hm : net.nodeAt? f.node = some m) (hrole : m.role = .source) :
    Safe n (Engine.arrive f.node h) net := by
  refine safe_room_bind ?_
  cases net.budget.maxDepth with
  | zero =>
    refine safe_bind (safe_enter (braced_of_firm hfirm)) fun _ mid hl ↦ ?_
    obtain ⟨b, rfl⟩ := hl.enter
    exact safe_tooDeep (braced_of_firm (hfirm.quiet (.budget net b)))
  | succ room =>
    refine safe_visit (braced_of_firm hfirm) fun b ↦ ?_
    refine safe_node_bind hm ?_
    rw [hrole]
    exact safe_sendAll (arriveWithin_arrives room) (arriveWithin_safe room)
      (hfirm.quiet (.budget net b)) hf

end HeaderFlow.Engine
