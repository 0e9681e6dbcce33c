import HeaderFlow.Proofs.Network.ProbeChanges
import HeaderFlow.Proofs.Network.Route
import HeaderFlow.Proofs.Space.Comparison
import HeaderFlow.Proofs.Space.Sparse

/-!
# What an alive flow carries

A flow is alive if its compacted headers have a region left, and a region may be left that contains
nothing. Where nothing is overwritten and every source sends something, **an alive flow with a
sparse region carries a header** (`exists_sends`), and that header took the route that the flow
followed. So an existential probe that holds was reached by a header, if an alive flow at it has a
sparse region (`Reached.alive_exact`).

Without sparse regions neither is so. Five rules may share out all headers of a table in such a way
that no two of their parts can be joined. A rule below them is then left with a region that contains
nothing: its flow goes on, and so does the flow at a probe, which holds (`alive_without_headers`).

## Two directions

From a flow to a header: the flow goes back to a source by `exists_route`, and if it carries a
header anywhere then the source sends it and every node on the route accepts it. From a header to a
flow: `gets_iff` says that where nothing is overwritten a header gets to a node exactly if a flow
there carries it.

The closed statements show both the use of the theorem and why its condition is there. `Hollow` is
decidable, so the network in which it holds is found by evaluation, apart from the emptiness of the
region that is left; that is expanded once (`hollow_of_shows`).
-/

namespace HeaderFlow

open Region

variable {net : Network} {spaces : NodeKey → Option Space} {s n : Node} {legs : List Leg}
  {h : Handle} {f : Flow} {q : Port} {x : Nat → Bool}

/-- The flow was sent by a source, or a region of its headers is sparse. -/
def Flow.Sparse (f : Flow) : Prop := f.parent = none ∨
  ∃ s, f.processed = some s ∧ ∃ r ∈ s.regions, r.Sparse

namespace Network

/-- A header that the source of a route sends is accepted all along the route, and gets to the node
at its end. -/
def Gets (net : Network) (spaces : NodeKey → Option Space) (n : Node) (x : Nat → Bool) : Prop :=
  ∃ s legs space, net.Route s legs ∧ stop s legs = n ∧ spaces s.key = some space ∧
    space.Contains x ∧ ∀ l ∈ legs, l.node.Accepts x ∧ ¬ net.Outranked l.node l.inPort x

/-! ### The route of a flow -/

/-- Headers go on from rules only. -/
theorem Route.isRule (hr : net.Route s legs) (hq : Exits s q legs) :
    ∀ l ∈ legs, l.node.type = .rule := by
  induction hr generalizing q with
  | start => rintro l ⟨⟩
  | leg _ hexit _ _ _ _ _ ih => exact List.forall_mem_cons.2 ⟨hq.1, ih hexit⟩

/-- The places of rules on the route are met on the way up. -/
theorem Follows.meets (hf : net.Follows s h legs) (hr : net.Route s legs) (hrest : AtRest net) :
    ∀ l ∈ legs, l.node.type = .rule → Meets net.layout net.flows (net.loopKey l.node) (some h) := by
  induction hf with
  | source => rintro l ⟨⟩
  | leg hf hp hnode _ _ _ _ _ _ _ ih =>
    cases hr with
    | leg hr _ hn =>
      refine List.forall_mem_cons.2
        ⟨fun htype ↦ .here hf ?_, fun l hl htype ↦ .above hf (hp ▸ ih hr l hl htype)⟩
      rw [hnode, loopKey?_layout (core?_core hrest.inv.layout.nodup hn), if_pos htype]

theorem type_eq_rule (hsource : n.type ≠ .source) (hprobe : n.core.kind ≠ .probe) :
    n.type = .rule := by
  cases hrole : n.role <;> simp_all [Node.type, Node.core, Role.kind]

/-- A node of the layout is one of the network. -/
theorem exists_mem_of_core? {key : NodeKey} {m : Core} (hm : net.layout.core? key = some m) :
    ∃ n ∈ net.nodes, n.key = key ∧ n.core = m := by
  obtain ⟨n, hn, rfl⟩ := Engine.exists_nodeAt? hm
  obtain ⟨hmem, hkey⟩ := Engine.nodeAt?_eq_some hn
  exact ⟨n, hmem, hkey, rfl⟩

/-- What leaves the flow by a port goes on from the route. -/
theorem Follows.exits (hf : net.Follows s h legs) (hr : net.Route s legs)
    (hlive : net.flows.find? h = some f) (hprobe : (stop s legs).core.kind ≠ .probe)
    (hq : q ∈ (stop s legs).outPorts.toList) (hleaves : f.Leaves q) : Exits s q legs := by
  cases hf with
  | source => exact hq
  | leg hf hp =>
    obtain rfl := Option.some.inj (hlive.symm.trans hf)
    cases hr with
    | leg _ _ _ htype => exact ⟨type_eq_rule htype hprobe, hq, hleaves.resolve_left (by simp [hp])⟩

/-- **A flow that goes on followed a route.** -/
theorem exists_route (hr : Reached net spaces) (hf : net.flows.find? h = some f)
    (hlooped : f.looped = false) : ∃ s legs, net.Route s legs ∧ net.Follows s h legs := by
  obtain ⟨hrest, -⟩ := hr.atRest
  have hI := hrest.inv
  have hkin := hr.attained.orderly.kin
  obtain ⟨d, hd⟩ := hI.forest.depth h f hf
  induction hd generalizing f with
  | @root h f' hf' hp =>
    obtain rfl := Option.some.inj (hf.symm.trans hf')
    obtain ⟨-, -, m, hm, hkind⟩ := hI.forest.root h f hf hp
    obtain ⟨s, hs, hkey, rfl⟩ := exists_mem_of_core? hm
    exact ⟨s, [], .start hs (Node.type_eq_source_iff.2 hkind), .source hf hp hkey.symm⟩
  | @step h p f' d hf' hp hd ih =>
    obtain rfl := Option.some.inj (hf.symm.trans hf')
    have hholds : net.Holds h f := ⟨hf, hI.listed.all h f hf (Set.notMem_empty h)⟩
    obtain ⟨g, hg⟩ := hI.forest.parent_live hf hp
    obtain ⟨-, hgoes, hforwards⟩ := (hkin.parent h f p hholds hp).of_live hg
    obtain ⟨s, legs, hroute, hfollows⟩ := ih hg hgoes
    -- the pipe leads from the end of the parent's route to the node of the flow
    obtain ⟨-, fwd, w, hpipe, hw, hsender, hreceiver, hport⟩ := hI.forest.came h f p g hf hp hg
    have hleaves := hI.forest.leaves h f p g fwd w hf hp hg hpipe hw
    obtain ⟨back, a, b, m, k, hj, rfl⟩ := hI.layout.joins hw
    dsimp only at hsender hreceiver hport hleaves
    obtain ⟨n, hn, hkey, rfl⟩ := exists_mem_of_core? hj.receiver
    obtain ⟨g', hg', hgnode⟩ := hfollows.live
    obtain rfl := Option.some.inj (hg.symm.trans hg')
    have hstop : net.layout.core? g.node = some (stop s legs).core := by
      rw [hgnode]
      exact core?_core hI.layout.nodup hroute.mem.1
    obtain rfl : m = (stop s legs).core := Option.some.inj ((hsender ▸ hj.sender).symm.trans hstop)
    have hexits := hfollows.exits hroute hg (hforwards _ hstop) hj.outPort hleaves
    obtain ⟨n', hn', hne, -⟩ := hI.forest.entered hI.layout hf hp
    obtain rfl : n.core = n' := Option.some.inj ((hreceiver ▸ hj.receiver).symm.trans hn')
    refine ⟨s, _,
      .leg hroute hexits hn (fun htype ↦ hne (Node.type_eq_source_iff.1 htype)) (hport ▸ hj.inPort)
      (hport ▸ hj.link) fun htype l hl hsame ↦ ?_,
      .leg hf hp (hreceiver.symm.trans hkey.symm) hpipe hj.front
      (hj.reverse ▸ hj.rear) (hsender.trans hgnode) hkey.symm hport hfollows⟩
    -- a place that is met again would have stopped the flow
    have hplace : net.layout.loopKey? f.node = some (net.loopKey n) := by
      rw [← hreceiver, ← hkey, loopKey?_layout (hkey ▸ hj.receiver), if_pos htype]
    refine hkin.apart h f _ hholds (Set.notMem_empty h) hlooped hplace ?_
    rw [hp, ← hsame]
    exact hfollows.meets hroute hrest l hl (hroute.isRule hexits l hl)

/-! ### What is carried -/

/-- **Without overwriting, headers get to a node just if a flow there carries them.** -/
theorem gets_iff (hr : Reached net spaces) (hplain : ∀ n ∈ net.nodes, n.overwrite? = none)
    (hn : n ∈ net.nodes) :
    net.Gets spaces n x ↔ ∃ h f, net.flows.find? h = some f ∧ f.node = n.key ∧ f.Sends x := by
  obtain ⟨hrest, hrooted⟩ := hr.atRest
  constructor
  · rintro ⟨s, legs, space, hroute, rfl, hspace, hx⟩
    obtain ⟨h, f, hfollows, hf, hsends⟩ := exists_follows hrest hrooted hroute hspace
      (fun n hn w hw ↦ absurd ((hplain n hn).symm.trans hw) (by simp))
        ((trace_iff_of_plain hplain hroute).2 hx)
    obtain ⟨f', hf', hnode⟩ := hfollows.live
    obtain rfl := Option.some.inj (hf.symm.trans hf')
    exact ⟨h, f, hf, hnode, hsends⟩
  · rintro ⟨h, f, hf, hnode, hx⟩
    have hlooped : f.looped = false := by
      by_contra hlooped
      obtain ⟨sent, hsent, -⟩ := hx
      exact absurd
        (((hrest.inv.sound.fits h f hf).looped (by simpa using hlooped)).symm.trans hsent) (by simp)
    obtain ⟨s, legs, hroute, hfollows⟩ := exists_route hr hf hlooped
    obtain ⟨space, hspace⟩ := hroute.exists_space hrooted
    obtain ⟨f', hf', hstop⟩ := hfollows.live
    obtain rfl := Option.some.inj (hf.symm.trans hf')
    refine ⟨s, legs, space, hroute, ?_, hspace, (trace_iff_of_plain hplain hroute).1 ?_⟩
    · exact Engine.eq_of_key_eq (map_key_cores net ▸ hrest.inv.layout.nodup) hroute.mem.1 hn
        (hstop.symm.trans hnode)
    · exact hfollows.trace hrest hrooted hroute hspace hplain hf hx

/-- **An alive flow with a sparse region carries a header.** -/
theorem exists_sends (hr : Reached net spaces) (hplain : ∀ n ∈ net.nodes, n.overwrite? = none)
    (hfull : ∀ n ∈ net.nodes, n.type = .source → ∃ space ∈ spaces n.key, ∃ x, space.Contains x)
    (hf : net.flows.find? h = some f) (hsparse : f.Sparse) : ∃ x, f.Sends x := by
  obtain ⟨hrest, hrooted⟩ := hr.atRest
  have hI := hrest.inv
  obtain ⟨m, hcore⟩ := hI.core hf
  obtain ⟨n, hn, hnode, rfl⟩ := exists_mem_of_core? hcore
  by_cases hp : f.parent = none
  · -- a root sends what its source does
    have htype : n.type = .source :=
      Node.type_eq_source_iff.2 ((hI.forest.isRoot_iff hI.layout hf hcore).1 hp)
    obtain ⟨space, hspace, x, hx⟩ := hfull n hn htype
    have hinput := ((hrooted.input_alike hspace hf hp hnode.symm).1 x).2 hx
    exact ⟨x, f.input, (hI.sound.source h f hf hp).1, hinput⟩
  · -- what leaves any other flow was compacted
    obtain ⟨s, hs, r, hr, hfew⟩ := hsparse.resolve_left hp
    have hover : net.layout.overwrite? f.node = none := by
      rw [← hnode, overwrite?_layout (hnode ▸ hcore), hplain n hn]
    obtain ⟨m, htrim, hnormal⟩ := (hI.sound.shaped h f hf).processed hp hover s hs
    obtain ⟨x, hx⟩ := hnormal.exists_contains htrim hr hfew
    exact ⟨x, s, hs, hx⟩

/-- **What is alive and what it carries.** Where nothing is overwritten and every source sends
something, an alive flow carries a header that got to its node, if it has a sparse region. An
existential probe holds only while an alive flow is at it, whatever its conditions, so that a header
gets to it if that flow has a sparse region. -/
theorem Reached.alive_exact (hr : Reached net spaces)
    (hplain : ∀ n ∈ net.nodes, n.overwrite? = none)
    (hfull : ∀ n ∈ net.nodes, n.type = .source → ∃ space ∈ spaces n.key, ∃ x, space.Contains x) :
    (∀ h f, net.flows.find? h = some f → f.isAlive = true → f.Sparse → ∃ x, f.Sends x) ∧
    ∀ n ∈ net.nodes, ∀ p, n.probe? = some p → p.mode = .existential → p.holds = true →
      (∃ h f, net.flows.find? h = some f ∧ f.node = n.key ∧ f.isAlive = true) ∧
      ((∃ h f, net.flows.find? h = some f ∧ f.node = n.key ∧ f.isAlive = true ∧ f.Sparse) →
        ∃ x, net.Gets spaces n x) := by
  refine ⟨fun h f hf _ hsparse ↦ exists_sends hr hplain hfull hf hsparse,
    fun n hn p hp hmode hholds ↦ ⟨?_, ?_⟩⟩
  · have hknows := (hr.attained.watched.nodes n hn).probe p hp
    rw [Probe.holds, hmode, decide_eq_true_iff] at hholds
    obtain ⟨e, he, -⟩ := List.countP_pos_iff.1 (hknows.count ▸ hholds)
    obtain ⟨-, f, hf, hnode, hlive⟩ := hknows.known e he
    exact ⟨e.1, f, hf, hnode, hlive.resolve_left (Set.notMem_empty _)⟩
  · rintro ⟨h, f, hf, hnode, -, hsparse⟩
    obtain ⟨x, hx⟩ := exists_sends hr hplain hfull hf hsparse
    exact ⟨x, (gets_iff hr hplain hn).2 ⟨h, f, hf, hnode, hx⟩⟩

/-! ### Tables before a probe -/

/-- A source before a table, and a probe behind it. The last rule sends on what the others leave. -/
def tableChanges (space : Space) (others : List Pattern) : List Mutation :=
  [.addTable 1 [11, 12], .addLink ⟨1, 11⟩, .addLink ⟨12, 21⟩] ++
    others.mapIdx (fun i p ↦ .addRule
      { table := 1, index := UInt32.ofNat i, inPorts := [11], outPorts := [], accepts := p }) ++
    [.addRule { table := 1, index := 9, inPorts := [11], outPorts := [12], accepts := .allWild 1 },
      .addSource space [1],
      .addProbe { mode := .existential, filter := .always, test := .always, ports := [21] }]

/-- Four patterns that fill all but the headers that start with three ones. -/
def fourParts : List Pattern :=
  let x := Pattern.allWild 1
  [(x.put 0 .zero).put 1 .one, (x.put 1 .zero).put 2 .one, (x.put 0 .one).put 2 .zero,
    ((x.put 0 .zero).put 1 .zero).put 2 .zero]

/-- What they do not fill. -/
def fifthPart : Pattern := (((Pattern.allWild 1).put 0 .one).put 1 .one).put 2 .one

/-- The last rule of the table is left with what four rules do not take. -/
def leaving : Network × (NodeKey → Option Space) :=
  (replay (tableChanges (.ofPattern (.allWild 1)) fourParts) (.new 1 .default, fun _ ↦ none)).get
    (by decide +kernel)

/-- The probe still gets the headers that start with three ones. -/
theorem alive_exact_leaving : ∃ n ∈ leaving.1.nodes, ∃ p, n.probe? = some p ∧ p.holds = true ∧
    (∃ h f, leaving.1.flows.find? h = some f ∧ f.node = n.key ∧ f.parent ≠ none ∧ ∃ x, f.Sends x) ∧
    ∃ x, leaving.1.Gets leaving.2 n x := by
  have hreached : Reached leaving.1 leaving.2 :=
    (Reached.new 1 .default).replay (Option.some_get _).symm
  obtain ⟨hplain, hspaces⟩ : (∀ n ∈ leaving.1.nodes, n.overwrite? = none) ∧
      ∀ n ∈ leaving.1.nodes, n.type = .source →
        leaving.2 n.key = some (.ofPattern (.allWild 1)) := by
    decide +kernel
  obtain ⟨n, hn, p, hp, hmode, hholds, h, -, f, hf, hnode, hparent, hlive, hsparse⟩ :
      ∃ n ∈ leaving.1.nodes, ∃ p ∈ n.probe?, p.mode = .existential ∧ p.holds = true ∧ ∃ h ∈ n.flows,
        ∃ f ∈ leaving.1.flows.find? h, f.node = n.key ∧ f.parent ≠ none ∧ f.isAlive = true ∧
          ∃ s ∈ f.processed, ∃ r ∈ s.regions, r.Sparse := by
    decide +kernel
  obtain ⟨hcarries, hprobe⟩ := Reached.alive_exact hreached hplain fun m hm hsource ↦
    ⟨_, hspaces m hm hsource, fun _ ↦ false,
      Space.contains_ofPattern.2 (Pattern.matches_allWild 1 _)⟩
  exact ⟨n, hn, p, hp, hholds, ⟨h, f, hf, hnode, hparent, hcarries h f hf hlive (.inr hsparse)⟩,
    (hprobe n hn p hp hmode hholds).2 ⟨h, f, hf, hnode, hlive, .inr hsparse⟩⟩

/-- Nothing is overwritten and every source sends something. Yet a probe holds that no header gets
to, since an alive flow at it carries nothing. -/
structure Hollow (net : Network) (spaces : NodeKey → Option Space) : Prop where
  reached : Reached net spaces
  plain : ∀ n ∈ net.nodes, n.overwrite? = none
  full : ∀ n ∈ net.nodes, n.type = .source → ∃ space ∈ spaces n.key, ∃ x, space.Contains x
  hollow : ∃ n ∈ net.nodes, (∃ p, n.probe? = some p ∧ p.isRunning = true ∧
      p.question = (.existential, .always, .always) ∧ p.holds = true) ∧
    (∃ h f, net.flows.find? h = some f ∧ f.node = n.key ∧ f.isAlive = true ∧ ∀ x, ¬ f.Sends x) ∧
    ∀ x, ¬ net.Gets spaces n x

instance (c : Condition) : Decidable (c = .always) :=
  match c with
  | .always => isTrue rfl
  | .never | .and _ _ | .or _ _ | .not _ | .header _ | .path _ => isFalse nofun

/-- The probe at the node holds, and these are the headers of the only flow at it. -/
def Shows (net : Network) (left : Space) (n : Node) : Prop :=
  (∃ p ∈ n.probe?, p.isRunning = true ∧ p.mode = .existential ∧ p.filter = .always ∧
    p.test = .always ∧ p.holds = true) ∧
  ∃ h ∈ n.flows.head?, n.flows = [h] ∧ ∃ f ∈ net.flows.find? h, f.node = n.key ∧
    f.processed = some left

instance (net : Network) (left : Space) (n : Node) : Decidable (net.Shows left n) :=
  inferInstanceAs (Decidable (_ ∧ _))

/-- Regions may be left that contain nothing, which expanding their holes shows. -/
theorem hollow_of_shows (left : Space) (hr : Reached net spaces)
    (hplain : ∀ n ∈ net.nodes, n.overwrite? = none)
    (hfull : ∀ n ∈ net.nodes, n.type = .source → ∃ space ∈ spaces n.key, ∃ x, space.Contains x)
    (hshows : ∃ n ∈ net.nodes, net.Shows left n) (huniform : left.Uniform)
    (hleft : left.isEmpty = false) (hempty : left.unroll.map Space.isEmpty = .ok true) :
    Hollow net spaces := by
  obtain ⟨n, hn, ⟨p, hp, hrunning, hmode, hfilter, htest, hholds⟩, h, -, hflows, f, hf, hnode,
    hprocessed⟩ := hshows
  have hnone : ∀ x, ¬ f.Sends x := by
    rintro x ⟨s, hs, hx⟩
    obtain rfl := Option.some.inj (hprocessed.symm.trans hs)
    obtain ⟨u, hu, -, hkeeps, -⟩ := Space.unroll_keeps huniform
    rw [hu] at hempty
    exact Space.not_contains_of_isEmpty (Except.ok.inj hempty) ((hkeeps.cover x).2 hx)
  have hlive : f.isAlive = true := by
    rw [Flow.isAlive, hprocessed, Option.any_some, hleft, Bool.not_false]
  have hquestion : p.question = (.existential, .always, .always) := by
    rw [Probe.question, hmode, hfilter, htest]
  refine ⟨hr, hplain, hfull, n, hn, ⟨p, hp, hrunning, hquestion, hholds⟩,
    ⟨h, f, hf, hnode, hlive, hnone⟩, fun x hx ↦ ?_⟩
  -- the flow that carries the header would be the one at the probe
  obtain ⟨k, g, hg, hgnode, hsends⟩ := (gets_iff hr hplain hn).1 hx
  have hk := hr.atRest.1.inv.listed.all k g hg (Set.notMem_empty k)
  rw [hgnode, roster, tied_of_nodeAt? (nodeAt?_of_mem hr.attained.watched.nodup hn), hflows] at hk
  obtain rfl := List.mem_singleton.1 hk
  exact hnone x (Option.some.inj (hf.symm.trans hg) ▸ hsends)

/-- A fifth rule takes what four rules leave. No two of the five patterns can be joined. -/
def filled : Network × (NodeKey → Option Space) :=
  (replay (tableChanges (.ofPattern (.allWild 1)) (fourParts ++ [fifthPart]))
    (.new 1 .default, fun _ ↦ none)).get (by decide +kernel)

/-- A source sends what a rule takes, with a hole in a hole. -/
def taken : Network × (NodeKey → Option Space) :=
  (replay (tableChanges ⟨1, [.mk (.allWild 1) [.mk (.allWild 1) [.plain fifthPart]]]⟩ [fifthPart])
    (.new 1 .default, fun _ ↦ none)).get (by decide +kernel)

/-- **An alive flow may carry nothing**: five holes may fill a region, and so may a hole together
with what is in the hole of another. -/
theorem alive_without_headers : Hollow filled.1 filled.2 ∧ Hollow taken.1 taken.2 := by
  constructor
  · obtain ⟨hplain, hspaces, hshows⟩ : (∀ n ∈ filled.1.nodes, n.overwrite? = none) ∧
        (∀ n ∈ filled.1.nodes, n.type = .source → filled.2 n.key = some (.ofPattern (.allWild 1))) ∧
        ∃ n ∈ filled.1.nodes,
          filled.1.Shows ⟨1, [.mk (.allWild 1) ((fourParts ++ [fifthPart]).map .plain)]⟩ n := by
      decide +kernel
    refine hollow_of_shows _ ((Reached.new 1 .default).replay (Option.some_get _).symm) hplain
      (fun n hn hsource ↦ ⟨_, hspaces n hn hsource, fun _ ↦ false, ?_⟩) hshows ?_ rfl
        (by decide +kernel)
    · exact Space.contains_ofPattern.2 (Pattern.matches_allWild 1 _)
    · simp [fourParts, fifthPart, Space.Uniform, plain, Pattern.put, Pattern.allWild, Pattern.fill]
  · obtain ⟨hplain, hspaces, hshows⟩ : (∀ n ∈ taken.1.nodes, n.overwrite? = none) ∧
        (∀ n ∈ taken.1.nodes, n.type = .source →
          taken.2 n.key = some ⟨1, [.mk (.allWild 1) [.mk (.allWild 1) [.plain fifthPart]]]⟩) ∧
        ∃ n ∈ taken.1.nodes,
          taken.1.Shows
            ⟨1, [.mk (.allWild 1) [.plain fifthPart, .mk (.allWild 1) [.plain fifthPart]]]⟩ n := by
      decide +kernel
    have hones : fifthPart.Matches fun _ ↦ true := by
      unfold Pattern.Matches
      decide +kernel
    refine hollow_of_shows _ ((Reached.new 1 .default).replay (Option.some_get _).symm) hplain
      (fun n hn hsource ↦ ⟨_, hspaces n hn hsource, fun _ ↦ true, ?_⟩) hshows ?_ rfl
        (by decide +kernel)
    · simp [Space.Contains, Pattern.matches_allWild, hones]
    · simp [fifthPart, Space.Uniform, plain, Pattern.put, Pattern.allWild, Pattern.fill]

end Network

end HeaderFlow
