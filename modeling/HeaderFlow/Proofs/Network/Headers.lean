import HeaderFlow.Proofs.Network.Invariant

/-!
# What single steps compute

One lemma for each function of propagation that computes something and does not call itself: what
comes out of a pipe, what a rule lets through, what is left after a loss, whether a flow is blocked
and whether it has come back. **Nothing here is about the order in which flows are visited.**

## Headers instead of spaces

Spaces are compared by the headers that they contain, and only two more things are said of them:
their heights, which must not grow from a flow to those that come from it, and whether they are in
normal form where nothing is overwritten. `Computes` puts these together for a rule. With an
overwrite the headers that leave are known in one direction only, because an exclusion that is
overwritten may be dropped (`rewrite_spec`).

Priorities come in by `TakenBy`, which is about a list of influences as it is gone through, and
`takenBy_iff` says that for the list of a rule this is what the layout calls taken.
-/

namespace HeaderFlow.Engine

open Region

variable {net net' : Network} {O : Set Handle} {D : Set Debt} {h : Handle} {f : Flow} {n : Node}
  {r : Rule} {key : NodeKey} {port : Port} {b : Nat} {s left : Space}

/-! ### Through a pipe -/

/-- **What comes out of a pipe is what enters it and matches.** -/
theorem pipeOut_spec {side : Pipe} (hout : pipeOut s side = .ok left) :
    (∀ x, left.Contains x ↔ s.Contains x ∧ side.pattern.Matches x) ∧
      left.Trim side.pattern.bytes ∧ left.Normalized ∧
      heightList left.regions ≤ heightList s.regions := by
  rw [pipeOut, Checked.bind_eq_ok] at hout
  obtain ⟨u, hu, hout⟩ := hout
  obtain ⟨htrim, hheight⟩ := Space.trim_of_clip hu
  obtain ⟨htrim', hcover, hheight'⟩ := htrim.compact hout
  exact ⟨fun x ↦ (hcover x).trans (Space.contains_of_clip hu), htrim',
    Space.normalized_of_compact htrim.bytes hout, Nat.le_trans hheight' hheight⟩

/-- Reporting that headers got lost changes nothing. -/
theorem Leads.reportLost {side back : Pipe} {measure : Measure}
    (hl : Leads (reportLost key h side back s left measure) net () net') : net' = net := by
  unfold Engine.reportLost at hl
  rw [leads_network_bind] at hl
  rcases hl.ite with ⟨-, hl⟩ | ⟨-, hl⟩
  · exact (leads_pure.1 hl).2
  · rw [leads_check_bind] at hl
    obtain ⟨lost, -, hl⟩ := hl
    rcases hl.ite with ⟨-, hl⟩ | ⟨-, hl⟩
    · simp only [leads_node_bind, leads_event_bind, leads_report] at hl
      obtain ⟨_, -, _, -, hl⟩ := hl
      exact hl
    · exact (leads_pure.1 hl).2

/-! ### Through a rule -/

/-- One of the influences takes the header at the port. -/
def TakenBy (net : Network) (port : Port) (ks : List Handle) (x : Nat → Bool) : Prop :=
  ∃ k ∈ ks, ∃ i, net.influences.find? k = some i ∧ port ∈ i.ports.toList ∧ i.common.Matches x

/-- The first influence takes the header, or one of the others does. -/
theorem takenBy_cons {k : Handle} {ks : List Handle} {i : Influence} {x : Nat → Bool}
    (hi : net.influences.find? k = some i) :
    TakenBy net port (k :: ks) x ↔
      (port ∈ i.ports.toList ∧ i.common.Matches x) ∨ TakenBy net port ks x := by
  simp only [TakenBy, List.mem_cons, exists_eq_or_imp]
  refine or_congr ⟨?_, fun hx ↦ ⟨i, hi, hx⟩⟩ Iff.rfl
  rintro ⟨i', hi', hx⟩
  rw [hi] at hi'
  exact Option.some.inj hi' ▸ hx

/-- **Subtracting influences leaves the headers that none of them takes.** -/
theorem Leads.subtractInfluences {ks : List Handle} (hs : s.Trim b)
    (hl : Leads (subtractInfluences port ks s) net left net') :
    net' = net ∧ left.Trim b ∧ (∀ x, left.Contains x ↔ s.Contains x ∧ ¬ TakenBy net port ks x) ∧
      heightList left.regions ≤ max 2 (heightList s.regions) := by
  induction ks generalizing s with
  | nil =>
    obtain ⟨rfl, rfl⟩ := leads_pure.1 hl
    exact ⟨rfl, hs, by simp [TakenBy], by omega⟩
  | cons k ks ih =>
    rw [Engine.subtractInfluences, leads_ask_bind] at hl
    obtain ⟨i, hi, hl⟩ := hl
    rw [get_eq_ok] at hi
    rcases hl.ite with ⟨hport, hl⟩ | ⟨hport, hl⟩
    · rw [leads_check_bind] at hl
      obtain ⟨u, hu, hl⟩ := hl
      obtain ⟨htrim, hheight⟩ := hs.cut hu
      obtain ⟨hnet, hleft, hcover, hheight'⟩ := ih htrim hl
      refine ⟨hnet, hleft, fun x ↦ ?_, by omega⟩
      rw [hcover, Space.contains_of_cut hu, takenBy_cons hi]
      have hport' := PortSet.contains_iff.1 hport
      tauto
    · obtain ⟨hnet, hleft, hcover, hheight⟩ := ih hs hl
      refine ⟨hnet, hleft, fun x ↦ ?_, hheight⟩
      have hport' : port ∉ i.ports.toList := fun hmem ↦ hport (PortSet.contains_iff.2 hmem)
      rw [hcover, takenBy_cons hi]
      tauto

/-- The role of a node is that of its core. -/
theorem kind_of_role {role : Role} (hn : net.nodeAt? key = some n) (hrole : n.role = role) :
    net.layout.core? key = some n.core ∧ n.core.kind = role.kind :=
  ⟨Layout.core?_of_nodeAt? hn, hrole ▸ rfl⟩

/-- A node that is there in one network is there in another with the same layout. -/
theorem node_of_layout (hlayout : net'.layout = net.layout) (hn : net.nodeAt? key = some n) :
    ∃ n', net'.nodeAt? key = some n' ∧ n'.core = n.core := by
  have hcore := Layout.core?_of_nodeAt? hn
  rw [← hlayout, Layout.core?_layout, Option.map_eq_some_iff] at hcore
  exact hcore

/-- A node stays a rule for as long as the layout stays. -/
theorem rule_of_layout (hlayout : net'.layout = net.layout) (hn : net.nodeAt? key = some n)
    (hr : n.role = .rule r) : ∃ n' r', net'.nodeAt? key = some n' ∧ n'.role = .rule r' := by
  obtain ⟨n', hn', hcore⟩ := node_of_layout hlayout hn
  have hkind : n'.role.kind = n.role.kind := congrArg Core.kind hcore
  rw [hr] at hkind
  cases hr' : n'.role with
  | rule r' => exact ⟨n', r', hn', hr'⟩
  | source => simp [hr', Role.kind] at hkind
  | probe p => simp [hr', Role.kind] at hkind

/-- A node stays a probe for as long as the layout stays, whatever the probe has been told since. -/
theorem probe_of_layout {p : Probe} (hlayout : net'.layout = net.layout)
    (hn : net.nodeAt? key = some n) (hp : n.role = .probe p) :
    ∃ n' p', net'.nodeAt? key = some n' ∧ n'.role = .probe p' := by
  obtain ⟨n', hn', hcore⟩ := node_of_layout hlayout hn
  have hkind : n'.role.kind = n.role.kind := congrArg Core.kind hcore
  rw [hp] at hkind
  cases hp' : n'.role with
  | probe p' => exact ⟨n', p', hn', hp'⟩
  | rule r => simp [hp', Role.kind] at hkind
  | source => simp [hp', Role.kind] at hkind

/-- The influences of a rule take what the layout says is taken. -/
theorem takenBy_iff {x : Nat → Bool} (hn : net.nodeAt? key = some n) (hr : n.role = .rule r) :
    TakenBy net port r.influencedBy x ↔ net.layout.Taken key port x := by
  obtain ⟨hcore, hkind⟩ := kind_of_role hn hr
  have hlost : net.layout.lost key = r.influencedBy := by
    refine (Network.tied_of_nodeAt? hn).trans ?_
    rw [Node.lost, Node.rule?, hr]
    rfl
  rw [Layout.Taken, hlost]
  exact ⟨fun hx ↦ ⟨⟨n.core, hcore, _, _, _, hkind⟩, hx⟩, fun hx ↦ hx.2⟩

/-- What a rule overwrites is in the layout. -/
theorem overwrite?_of_role (hn : net.nodeAt? key = some n) (hr : n.role = .rule r) :
    net.layout.overwrite? key = r.overwrite := by
  obtain ⟨hcore, hkind⟩ := kind_of_role hn hr
  exact Layout.overwrite?_of_rule hcore hkind

/-- **Rewriting loses no header**, and is exact where nothing is overwritten. -/
theorem rewrite_spec {u : Space} (hs : s.Trim b) (hu : r.rewrite s = .ok u) :
    (r.overwrite = none → u = s) ∧ heightList u.regions ≤ heightList s.regions ∧
      ∀ w, r.overwrite = some w → w.mask.Concrete → heightList s.regions ≤ 2 →
        ∀ x y, s.Contains x → w.mask.Turns w.value x y → u.Contains y := by
  rw [Rule.rewrite] at hu
  cases hw : r.overwrite with
  | none =>
    simp only [hw, Except.ok.injEq] at hu
    subst hu
    exact ⟨fun _ ↦ rfl, Nat.le_refl _, by simp⟩
  | some w =>
    simp only [hw] at hu
    refine ⟨by simp, Space.heightList_overwrite hu, ?_⟩
    rintro _ ⟨⟩ hconcrete hheight x y hx hxy
    exact Space.contains_of_overwrite hconcrete hs hheight hu hx hxy

/-- What a rule computes for a flow from what arrived. -/
structure Computes (L : Layout) (f : Flow) (processed : Option Space) : Prop where
  fits : ∀ D h, Fits L D h { f with processed := processed }
  trim : L.overwrite? f.node = none → ∀ s, processed = some s → ∃ n, s.Trim n ∧ s.Normalized
  height : ∀ s, processed = some s → heightList s.regions ≤ max 2 (heightList f.input.regions)

/-- Nothing leaves a rule where everything that arrived is taken. -/
theorem computes_none {L : Layout}
    (hall : ∀ x, f.input.Contains x → L.Taken f.node f.port x) : Computes L f none := by
  refine ⟨fun D h ↦ ⟨fun _ _ _ x y hx hnot ↦ absurd (hall x hx) hnot, ?_, fun _ ↦ rfl⟩, by simp,
    by simp⟩
  rintro - - x ⟨s, hs, -⟩
  exact absurd hs (by simp)

/-- What a rule makes of the headers that are not taken may leave it. -/
theorem computes_rewrite {L : Layout} {tight sent : Space} (how : L.overwrite? f.node = r.overwrite)
    (hlooped : f.looped = false) (htrim : tight.Trim b)
    (hnormal : r.overwrite = none → tight.Normalized)
    (hkeeps : ∀ x, tight.Contains x ↔ f.input.Contains x ∧ ¬ L.Taken f.node f.port x)
    (hheight : heightList tight.regions ≤ max 2 (heightList f.input.regions))
    (hsent : r.rewrite tight = .ok sent) : Computes L f (some sent) := by
  obtain ⟨hsame, hheight', hlower⟩ := rewrite_spec htrim hsent
  refine ⟨fun D h ↦ ⟨fun _ _ hok x y hx hnot hxy ↦ ?_, fun _ hw x hx ↦ ?_,
    fun hl ↦ absurd (hlooped.symm.trans hl) (by simp)⟩, ?_, ?_⟩
  · have hxt := (hkeeps x).2 ⟨hx, hnot⟩
    cases hw : r.overwrite with
    | none =>
      rw [Layout.turns_of_eq_none (how.trans hw)] at hxy
      exact ⟨sent, rfl, by rw [hsame hw, hxy]; exact hxt⟩
    | some w =>
      obtain ⟨hconcrete, hlow⟩ := hok w (how.trans hw)
      simp only at hlow
      rw [Layout.Turns, how.trans hw] at hxy
      exact ⟨sent, rfl, hlower w hw hconcrete (by omega) x y hxt hxy⟩
  · obtain ⟨s, hs, hx⟩ := hx
    obtain rfl := Option.some.inj hs
    rw [hsame (how.symm.trans hw)] at hx
    exact .inl ((hkeeps x).1 hx)
  · rintro hw s ⟨⟩
    have hplain := how.symm.trans hw
    exact ⟨b, hsame hplain ▸ htrim, hsame hplain ▸ hnormal hplain⟩
  · rintro s ⟨⟩
    omega

/-- **A rule lets through what arrived and is not taken.** -/
theorem Leads.recompute {alive : Bool} (hl : Leads (recompute f.node h) net alive net')
    (hf : net.flows.find? h = some f) (hn : net.nodeAt? f.node = some n) (hr : n.role = .rule r)
    (htrim : f.input.Trim b) (hlooped : f.looped = false) :
    ∃ processed, net' = withFlow net h (fun f ↦ { f with processed := processed }) ∧
      alive = processed.isSome ∧ Computes net.layout f processed := by
  have hrule : n.rule? = some r := by rw [Node.rule?, hr]
  rw [Engine.recompute, leads_node_bind] at hl
  obtain ⟨n', hn', hl⟩ := hl
  obtain rfl := Option.some.inj (hn.symm.trans hn')
  rw [hrule] at hl
  simp only [leads_flow_bind] at hl
  obtain ⟨f', hf', hl⟩ := hl
  obtain rfl := Option.some.inj (hf.symm.trans hf')
  obtain ⟨left, net₁, hsub, hrest⟩ := hl.bind
  obtain ⟨rfl, hleft, hcover, hheight⟩ := hsub.subtractInfluences htrim
  rw [leads_check_bind] at hrest
  obtain ⟨tight, htight, hrest⟩ := hrest
  obtain ⟨htrim', hcover', hheight'⟩ := hleft.compact htight
  have hkeeps : ∀ x, tight.Contains x ↔ f.input.Contains x ∧
      ¬ net₁.layout.Taken f.node f.port x := by
    intro x
    rw [hcover', hcover, takenBy_iff hn hr]
  rcases hrest.ite with ⟨hempty, hrest⟩ | ⟨hempty, hrest⟩
  · rw [leads_updateFlow_bind] at hrest
    obtain ⟨rfl, rfl⟩ := leads_pure.1 hrest
    refine ⟨none, rfl, rfl, computes_none fun x hx ↦ ?_⟩
    by_contra hnot
    exact Space.not_contains_of_isEmpty hempty ((hkeeps x).2 ⟨hx, hnot⟩)
  · rw [leads_check_bind] at hrest
    obtain ⟨sent, hsent, hrest⟩ := hrest
    rw [leads_updateFlow_bind] at hrest
    obtain ⟨rfl, rfl⟩ := leads_pure.1 hrest
    have hnormal : r.overwrite = none → tight.Normalized := by
      intro hplain
      rw [Rule.mask?, hplain] at htight
      exact Space.normalized_of_compact hleft.bytes htight
    exact ⟨some sent, rfl, rfl, computes_rewrite (overwrite?_of_role hn hr) hlooped htrim' hnormal
      hkeeps (by omega) hsent⟩

/-- **A loss takes away exactly the headers in it.** -/
theorem Leads.lose {alive : Bool} {loss : Pattern} (hs : s.Trim b)
    (hl : Leads (lose h s loss) net alive net') :
    ∃ left, net' = withFlow net h (fun f ↦ { f with processed := some left }) ∧
      alive = !left.isEmpty ∧ left.Trim b ∧ left.Normalized ∧
      (∀ x, left.Contains x ↔ s.Contains x ∧ ¬ loss.Matches x) ∧
      heightList left.regions ≤ max 2 (heightList s.regions) := by
  rw [Engine.lose, leads_check_bind] at hl
  obtain ⟨left, hleft, hl⟩ := hl
  rw [leads_updateFlow_bind] at hl
  obtain ⟨rfl, rfl⟩ := leads_pure.1 hl
  obtain ⟨u, hu, hleft⟩ := Checked.bind_eq_ok.1 hleft
  obtain ⟨htrim, hheight⟩ := hs.cut hu
  obtain ⟨htrim', hcover, hheight'⟩ := htrim.compact hleft
  exact ⟨left, rfl, rfl, htrim', Space.normalized_of_compact htrim.bytes hleft,
    fun x ↦ (hcover x).trans (Space.contains_of_cut hu), by omega⟩

/-! ### Back where it came from -/

/-- Where a node does not send at the boundary of its table, a flow may leave by every port. -/
theorem leaves_of_outputLayer_eq_false {n : Core} (hI : Inv net O D)
    (hf : net.flows.find? h = some f) (hcore : net.layout.core? f.node = some n)
    (hout : n.outputLayer = false) (hport : port ∈ n.outPorts.toList) : f.Leaves port := by
  have hproper := hI.layout.proper _ (Layout.mem_of_core? hcore)
  cases hp : f.parent with
  | none => exact .inl hp
  | some p =>
    obtain ⟨m, hm, hne, -⟩ := hI.forest.entered hI.layout hf hp
    obtain rfl := Option.some.inj (hcore.symm.trans hm)
    cases hkind : n.kind with
    | rule table index w =>
      rw [Core.Proper, hkind] at hproper
      exact absurd (hout.symm.trans (hproper.2.1 _ hport)) (by simp)
    | source => exact absurd hkind hne
    | probe =>
      rw [Core.Proper, hkind] at hproper
      exact absurd (hproper.1 ▸ hport) List.not_mem_nil

/-- Only rules send at the boundary of a table, and they take everything in there. -/
theorem inputLayer_of_outputLayer {n : Core} (hI : Inv net O D) (hf : net.flows.find? h = some f)
    (hcore : net.layout.core? f.node = some n) (hout : n.outputLayer = true) :
    f.parent ≠ none ∧ n.inputLayer = true := by
  have hproper := hI.layout.proper _ (Layout.mem_of_core? hcore)
  have hparent : f.parent ≠ none := by
    intro hp
    rw [Core.Proper, (hI.forest.isRoot_iff hI.layout hf hcore).1 hp] at hproper
    exact absurd (hout.symm.trans hproper.2.1) (by simp)
  obtain ⟨p, hp⟩ := Option.ne_none_iff_exists'.1 hparent
  obtain ⟨m, hm, hne, hin⟩ := hI.forest.entered hI.layout hf hp
  obtain rfl := Option.some.inj (hcore.symm.trans hm)
  refine ⟨hparent, ?_⟩
  cases hkind : n.kind with
  | rule table index w =>
    rw [Core.Proper, hkind] at hproper
    exact hproper.1 _ hin
  | source => exact absurd hkind hne
  | probe =>
    rw [Core.Proper, hkind] at hproper
    exact absurd (hout.symm.trans hproper.2) (by simp)

/-- **A flow is blocked at the port by which it came in**, and at no other exit of its node. -/
theorem Leads.blocked {ans : Bool} (hl : Leads (blocked f.node h port) net ans net')
    (hI : Inv net O D) (hf : net.flows.find? h = some f) :
    net' = net ∧ (ans = true → ¬ f.Leaves port) ∧ ∀ n, net.layout.core? f.node = some n →
      port ∈ n.outPorts.toList → ans = false → f.Leaves port := by
  rw [Engine.blocked, leads_node_bind] at hl
  obtain ⟨n, hn, hl⟩ := hl
  have hcore := Layout.core?_of_nodeAt? hn
  rcases hl.ite with ⟨hout, hl⟩ | ⟨hout, hl⟩
  · obtain ⟨rfl, rfl⟩ := leads_pure.1 hl
    refine ⟨rfl, by simp, fun m hm hport _ ↦ ?_⟩
    obtain rfl := Option.some.inj (hcore.symm.trans hm)
    exact leaves_of_outputLayer_eq_false hI hf hcore (by simpa [Node.core] using hout) hport
  · obtain ⟨hparent, hinput⟩ :=
      inputLayer_of_outputLayer hI hf hcore (by simpa [Node.core] using hout)
    have hsize := Arena.index_lt hf
    have hline : net.lineage (some h) =
        f :: Network.ancestry net.flows (net.flows.slots.size - 1) f.parent := by
      rw [Network.lineage, show net.flows.slots.size = net.flows.slots.size - 1 + 1 by omega]
      simp only [Network.ancestry, hf, Nat.add_sub_cancel]
    obtain ⟨a, ha, hl⟩ := leads_ask_bind.1 (show Leads (ask _ >>= pure) net ans net' by
      rwa [bind_pure])
    obtain ⟨rfl, rfl⟩ := leads_pure.1 hl
    rw [hline, Network.enteredBy, Network.node, hn, Checked.ok_bind,
      if_pos (show n.inputLayer = true from hinput)] at ha
    obtain rfl : (f.port == port) = ans := Except.ok.inj ha
    refine ⟨rfl, fun htrue hleaves ↦ ?_, fun _ _ _ hfalse ↦ .inr fun he ↦ ?_⟩
    · exact hleaves.resolve_left hparent (beq_iff_eq.1 htrue).symm
    · exact absurd he.symm (beq_eq_false_iff_ne.1 hfalse)

/-- The search for a place up the way of a flow ends at a rule that counts as that place. -/
theorem meets_of_revisited {place : UInt64} {fuel : Nat} {start : Option Handle} {id : NodeId}
    (hv : net.revisited place (Network.ancestry net.flows fuel start) = .ok (some id)) :
    Meets net.layout net.flows place start := by
  induction fuel generalizing start with
  | zero => exact absurd hv (by simp [Network.ancestry, Network.revisited])
  | succ fuel ih =>
    cases start with
    | none => exact absurd hv (by simp [Network.ancestry, Network.revisited])
    | some h =>
      cases hf : net.flows.find? h with
      | none => exact absurd hv (by simp [Network.ancestry, hf, Network.revisited])
      | some f =>
        simp only [Network.ancestry, hf, Network.revisited, Checked.bind_eq_ok] at hv
        obtain ⟨n, hn, hv⟩ := hv
        have hn' : net.nodeAt? f.node = some n := by
          rw [Network.node] at hn
          cases hat : net.nodeAt? f.node <;> simp_all
        cases hr : n.role with
        | rule r =>
          simp only [Node.rule?, hr] at hv
          split at hv
          · rename_i hplace
            refine .here hf ?_
            obtain ⟨hcore, hkind⟩ := kind_of_role hn' hr
            rw [Layout.loopKey?, hcore]
            simp only [hkind, Role.kind]
            exact congrArg some (beq_iff_eq.1 hplace)
          · exact .above hf (ih hv)
        | source => simp [Node.rule?, hr] at hv
        | probe p => simp [Node.rule?, hr] at hv

/-- **A flow that is found to be looped meets the place of its rule above.** -/
theorem meets_of_loopOf {id : NodeId} (hf : net.flows.find? h = some f)
    (hn : net.nodeAt? f.node = some n) (hr : n.role = .rule r)
    (hloop : net.loopOf h = .ok (some id)) :
    ∃ place, net.layout.loopKey? f.node = some place ∧
      Meets net.layout net.flows place f.parent := by
  rw [Network.loopOf, get_eq_ok.2 hf, Checked.ok_bind, Network.node, hn, Checked.ok_bind] at hloop
  refine ⟨n.id &&& net.settings.loopDetection.keyMask, ?_, meets_of_revisited hloop⟩
  obtain ⟨hcore, hkind⟩ := kind_of_role hn hr
  rw [Layout.loopKey?, hcore]
  simp only [hkind, Role.kind]
  rfl

end HeaderFlow.Engine
