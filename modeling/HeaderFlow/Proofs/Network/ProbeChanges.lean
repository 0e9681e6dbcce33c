import HeaderFlow.Proofs.Network.ProbePropagation
import HeaderFlow.Proofs.Network.Widths
import HeaderFlow.Proofs.Space.Widening

/-!
# Probes through all changes

Every change keeps what is known of probes: wiring and influences are of no account to them, a new
node lists nothing and has no notes, and **a probe that is started looks at the flows that are
listed at its node**, each of which is there and listed once. So in every network that can be
attained, the notes of a probe are about flows with headers at its node
(`Network.Attained.watched`).

Widening changes the headers of flows and the questions of probes at once. What a probe has heard
stays right if everything has the length of the headers before that (`Network.Fit`).

## From steps to changes

`Engine.Minds` is what is known of propagation, and the removal of nodes is composed of it. Three
steps remain that are about probes themselves: a node is added (`ends_addNode`), a probe is started
(`minded_startProbe`), and it is stopped (`minded_stopProbe`). A probe that is being added is asleep
until it is started, and flows arrive at it in the meantime; that is what the set of sleeping probes
is for.

`Outcome.Informs` is the statement about a change as a whole. It is kept if the change is refused
and if it is broken off, and nothing is said where a precondition was broken.
-/

namespace HeaderFlow

open Engine

variable {α : Type} {net net' : Network} {S : Set NodeKey} {U V : Set Handle} {h : Handle}
  {n : Node} {p : Probe} {key : NodeKey} {B : Network → Prop}

/-- What a computation leads to that keeps what is known of probes. -/
theorem Engine.Leads.minded {x : Engine α} {a : α} (hl : Leads x net a net') (hx : Minds S U V x)
    (hM : net.Minded S ∅ U V) : net'.Minded S ∅ U V := by
  obtain ⟨reports, reports', hrun⟩ := hl
  have hend := hx net hM reports
  rwa [hrun] at hend

/-- A tame computation leaves all nodes what they are. -/
theorem Engine.Leads.core?_eq {x : Engine α} {a : α} (hl : Leads x net a net') (hx : Tame false x)
    (hnodup : (net.nodes.map Node.key).Nodup) : net'.layout.core? key = net.layout.core? key := by
  obtain ⟨reports, reports', hrun⟩ := hl
  have hend := hx.stops (p := ⟨net, reports⟩) (by rwa [map_key_cores])
  rw [Stops, hrun] at hend
  rw [Layout.core?, Layout.core?, hend.cores]

/-- The node lists nothing, and if it is a probe, it has not been started. -/
structure Node.Blank (n : Node) : Prop where
  flows : n.flows = []
  probe : ∀ p, n.probe? = some p → p.results = [] ∧ p.deciding = 0 ∧ p.isRunning = false

namespace Network

/-! ### Nodes come and go

A node that comes is no probe, or a probe that has not been started, so nobody has to have heard of
anything at it. -/

/-- A new node has nothing to know, and a new probe is asleep. -/
theorem Watched.addNode (hW : net.Watched ∅ ∅ ∅) (hkey : n.key = net.nextKey) (hblank : n.Blank) :
    Watched {n.key} ∅ ∅ (net.enrol n) := by
  have hmem : ∀ m ∈ net.nodes ++ [n], m ∈ net.nodes ∨ m = n := fun m hm ↦
    (List.mem_append.1 hm).imp_right List.mem_singleton.1
  refine ⟨?_, fun m hm ↦ ?_, hW.valid, fun m hm ↦ ?_⟩
  · rw [enrol, List.map_append, List.map_singleton, hkey]
    refine List.nodup_append.2 ⟨hW.nodup, List.nodup_singleton _, fun a ha b hb hab ↦ ?_⟩
    obtain ⟨m, hm, rfl⟩ := List.mem_map.1 ha
    exact absurd (hW.fresh m hm) (by rw [hab, List.mem_singleton.1 hb]; exact Nat.lt_irrefl _)
  · rcases hmem m hm with hm | rfl
    · exact Nat.lt_succ_of_lt (hW.fresh m hm)
    · exact hkey ▸ Nat.lt_succ_self _
  · rcases hmem m hm with hm | rfl
    · have hne : m.key ≠ n.key := hkey ▸ (hW.fresh m hm).ne
      obtain ⟨honce, hroster, hprobe⟩ := hW.nodes m hm
      exact ⟨honce, hroster, fun p hp ↦ { hprobe p hp with asleep := fun hmem ↦ absurd hmem hne }⟩
    · refine ⟨hblank.flows ▸ List.nodup_nil, fun h hh ↦ ?_, fun p hp ↦ ?_⟩
      · rw [hblank.flows] at hh
        cases hh
      · obtain ⟨hresults, hdeciding, hidle⟩ := hblank.probe p hp
        exact .of_nil hresults hdeciding fun _ ↦ hidle

/-- **A new node has nothing to hear of.** -/
theorem Minded.addNode (hM : net.Minded ∅ ∅ ∅ V) (hkey : n.key = net.nextKey) (hblank : n.Blank) :
    Minded {n.key} ∅ ∅ V (net.enrol n) := by
  -- what lists a flow is no new node
  have hold : ∀ m ∈ net.nodes ++ [n], ∀ h ∈ m.flows, m ∈ net.nodes := fun m hm h hh ↦ by
    rcases List.mem_append.1 hm with hm | hm
    · exact hm
    · rw [List.mem_singleton.1 hm, hblank.flows] at hh
      cases hh
  refine ⟨hM.toWatched.addNode hkey hblank, hM.parents, by rintro h ⟨⟩,
    fun m hm p hp hrunning h hh hout ↦ ?_⟩
  refine (hM.heard m (hold m hm h hh) p hp hrunning h hh hout).carry (fun stops ht ↦ ?_)
    (fun f hf ↦ ⟨f, hf, rfl⟩) rfl rfl
  exact ht.back (P := fun _ ↦ True) trivial (fun _ _ _ _ _ _ ↦ trivial)
    (fun g f _ hf ↦ ⟨f, hf, rfl⟩) fun m hm g hg _ ↦ ⟨m, hold m hm g hg, rfl, rfl, hg⟩

/-- A node that goes takes its notes along. -/
theorem Watched.strike {X : Set Handle} (hW : net.Watched S X U) (m : Node) :
    Watched S X U (net.strike m) :=
  ⟨hW.nodup.sublist (List.filter_sublist.map _),
    fun n hn ↦ hW.fresh n (List.mem_filter.1 hn).1, hW.valid, fun n hn ↦
      hW.nodes n (List.mem_filter.1 hn).1⟩

/-- A node that goes takes along what it had heard. -/
theorem Minded.strike {X : Set Handle} (hM : net.Minded S X U V) (m : Node) :
    Minded S X U V (net.strike m) where
  toWatched := hM.toWatched.strike m
  parents := hM.parents
  apart h hh hout n hn := hM.apart h hh hout n (List.mem_filter.1 hn).1
  heard n hn p hp hrunning h hh hout := by
    refine (hM.heard n (List.mem_filter.1 hn).1 p hp hrunning h hh hout).carry (fun stops ht ↦ ?_)
      (fun f hf ↦ ⟨f, hf, rfl⟩) rfl rfl
    exact ht.back_all (fun g f hf ↦ ⟨f, hf, rfl⟩) fun m hm ↦
      ⟨m, (List.mem_filter.1 hm).1, rfl, rfl, List.Subset.refl _⟩

end Network

namespace Engine

/-! ### Wiring -/

theorem minds_connectLink (l : Link) : Minds S ∅ V (connectLink l) := by
  refine minds_network.bind fun net ↦ .forM (fun s ↦ .forM (fun r ↦ ?_) _) _
  refine (minds_node _).bind fun _ ↦ (minds_node _).bind fun _ ↦ (minds_check _).bind fun o ↦ ?_
  split
  · exact (aside_addPipe _).minds.bind fun _ ↦ minds_sendFlows _ _
  · exact minds_pure

theorem minds_cutPipe (l : Link) (fwd : Handle) : Minds S U V (cutPipe l fwd) := by
  refine (minds_pipe fwd).bind fun side ↦ ?_
  split
  · exact minds_pure
  · refine (minds_pipe _).bind fun back ↦ ?_
    split
    · exact minds_pure
    · refine (minds_node _).bind fun n ↦ Minds.bind (.forM (fun h ↦ ?_) _) fun _ ↦
        (aside_removePipe fwd).minds
      refine (minds_flow? h).bind fun o ↦ ?_
      split
      · exact minds_removeFlow h
      · exact minds_pure

theorem minds_disconnectLink (l : Link) : Minds S U V (disconnectLink l) :=
  minds_network.bind fun _ ↦ .forM (fun _ ↦ (minds_node _).bind fun _ ↦ .forM (minds_cutPipe l) _) _

/-! ### Influences -/

theorem minds_takeWon (key : NodeKey) : Minds S ∅ V (takeWon key) := by
  refine (minds_node key).bind fun n ↦ ?_
  split
  · refine .forM (fun k ↦ minds_network.bind fun net ↦ ?_) _
    split
    · exact minds_refreshFlows _ _ _
    · exact minds_pure
  · exact minds_pure

theorem minds_release (key : NodeKey) : Minds S ∅ V (release key) := by
  refine (minds_node key).bind fun n ↦ ?_
  split
  · exact (aside_mapRule _ (by exact fun _ ↦ ⟨rfl, rfl, rfl⟩)).minds.bind fun _ ↦
      (Aside.forM aside_dropLost _).minds.bind fun _ ↦ (aside_dropWon _).minds.bind fun _ ↦
        .forM (fun _ ↦ minds_refreshFlows _ _ _) _
  · exact minds_pure

/-! ### Nodes -/

/-- **A node is added** that lists nothing. If it is a probe it is asleep. -/
theorem ends_addNode {node : NodeKey → Node} (hM : net.Minded ∅ ∅ ∅ V)
    (hkey : ∀ k, (node k).key = k) (hblank : ∀ k, (node k).Blank) :
    Ends (addNode node) net (Network.Minded ∅ ∅ ∅ V) fun key net' ↦
      net'.Minded {key} ∅ ∅ V ∧ net'.nodeAt? key = some (node key) := by
  rw [addNode, ends_network_bind, ends_update_bind, ends_pure]
  have hnew := hM.addNode (hkey net.nextKey) (hblank net.nextKey)
  have hat := Network.nodeAt?_of_mem hnew.nodup
    (List.mem_append_right _ (List.mem_singleton_self _))
  rw [hkey] at hnew hat
  exact ⟨hnew, hat⟩

theorem minds_eraseNode (key : NodeKey) : Minds S U V (eraseNode key) :=
  (minds_node key).bind fun _ ↦ minds_update fun _ hM ↦ hM.strike _

theorem minds_removeFlows (key : NodeKey) : Minds S U V (removeFlows key) :=
  (minds_node key).bind fun _ ↦ .forM minds_removeFlow _

/-- A rule goes: its flows first, then its pipes, then its influences, for which other flows are
refreshed. -/
theorem minds_removeRuleNode (key : NodeKey) : Minds S ∅ V (removeRuleNode key) :=
  (minds_removeFlows key).bind fun _ ↦
    (aside_disconnect key).minds.bind fun _ ↦ (minds_release key).bind fun _ ↦
    minds_eraseNode key

theorem minds_removePlainNode (key : NodeKey) : Minds S U V (removePlainNode key) :=
  (minds_removeFlows key).bind fun _ ↦ (aside_disconnect key).minds.bind fun _ ↦ minds_eraseNode key

/-! ### Probes

A probe that starts hears of all flows that are there at once. One that stops need hear of nothing
any more. -/

/-- A probe is started on flows that are listed and have headers, and on all of these. -/
theorem of_liveChains {hs : List Handle} {l : List (Handle × Chain)}
    (hl : liveChains net hs = .ok l) :
    (l.map Prod.fst).Sublist hs ∧
      (∀ e ∈ l, (net.flows.find? e.1).any Flow.isAlive = true ∧ net.chainOf e.1 = .ok e.2) ∧
      ∀ h ∈ hs, (net.flows.find? h).any Flow.isAlive = true → ∃ c, (h, c) ∈ l := by
  induction hs generalizing l with
  | nil =>
    obtain rfl := Except.ok.inj hl
    exact ⟨.refl _, by rintro e ⟨⟩, by rintro h ⟨⟩⟩
  | cons h hs ih =>
    rw [liveChains] at hl
    split at hl
    · rename_i hlive
      obtain ⟨c, hc, hl⟩ := Checked.bind_eq_ok.1 hl
      obtain ⟨more, hmore, hl⟩ := Checked.bind_eq_ok.1 hl
      obtain rfl := Except.ok.inj hl
      obtain ⟨hsub, hsound, hall⟩ := ih hmore
      refine ⟨hsub.cons_cons h, List.forall_mem_cons.2 ⟨⟨hlive, hc⟩, hsound⟩, fun g hg hglive ↦ ?_⟩
      rcases List.mem_cons.1 hg with rfl | hg
      · exact ⟨c, List.mem_cons_self⟩
      · exact (hall g hg hglive).imp fun _ ↦ List.mem_cons_of_mem _
    · rename_i hdead
      obtain ⟨hsub, hsound, hall⟩ := ih hl
      refine ⟨hsub.cons h, hsound, fun g hg hglive ↦ ?_⟩
      rcases List.mem_cons.1 hg with rfl | hg
      · exact absurd hglive hdead
      · exact hall g hg hglive

/-- What a probe notes when it is started are flows at its node. -/
theorem knows_of_start {F : Arena Flow} {q : Probe} {l : List (Handle × Chain)}
    {ts : List (Option Handle × Transition)} (hn : n.Informed S F ∅ ∅) (hp : n.probe? = some p)
    (hidle : p.isRunning = false) (hstart : p.start l = .ok (q, ts))
    (hsub : (l.map Prod.fst).Sublist n.flows)
    (hlive : ∀ e ∈ l, (F.find? e.1).any Flow.isAlive = true) : q.Knows ∅ F n.key ∅ ∅ := by
  obtain ⟨honce, hroster, hprobe⟩ := hn
  have hknows := hprobe p hp
  obtain ⟨-, hq, -⟩ := Probe.follows_start hstart (hknows.idle hidle)
    (hknows.deciding_eq_zero hidle) (honce.sublist hsub)
  refine ⟨hq.toCounted, fun hstill ↦ ?_, by rintro ⟨⟩, fun e he ↦ ⟨Set.notMem_empty _, ?_⟩⟩
  · exact absurd (hstill.symm.trans (Probe.isRunning_of_start hstart)) (by simp)
  · -- what is noted was among the flows that it was started on
    have hsome : q.result? e.1 ≠ none := fun hnone ↦
      absurd rfl (bne_iff_ne.1 (List.lookup_eq_none_iff.1 hnone e he))
    obtain ⟨r, hr⟩ := Option.ne_none_iff_exists'.1 hsome
    obtain ⟨c, hc⟩ := hq.present e.1 r hr
    obtain ⟨as, bs, hsplit, -⟩ := List.lookup_eq_some_iff.1 hc
    have hcmem : (e.1, c) ∈ l := hsplit ▸ List.mem_append_right as List.mem_cons_self
    obtain ⟨f, hf, hnode⟩ := hroster e.1 (hsub.subset (List.mem_map_of_mem hcmem))
    have halive := hlive _ hcmem
    rw [hf] at halive
    exact ⟨f, hf, hnode, .inr halive⟩

/-- **A probe that is started knows the flows at its node**, and has heard of all of them. -/
theorem minded_startProbe (hl : Leads (startProbe key) net () net') (hM : net.Minded {key} ∅ ∅ V) :
    net'.Minded ∅ ∅ ∅ V := by
  obtain ⟨n, hn, hl⟩ := hl.startProbe
  have hbegin : Network.Minded {key} ∅ ∅ V
      { net with lastEvent := some { kind := .startProbe, first := n.id.toNat } } := hM.of_face rfl
  obtain ⟨-, rfl⟩ | ⟨p, flows, q, ts, hp, hflows, hstart, rfl⟩ := hl
  · exact hbegin.awaken
  obtain ⟨hmem, hkey⟩ := nodeAt?_eq_some hn
  obtain ⟨hsub, hsound, hall⟩ := of_liveChains hflows
  have hidle := ((hM.nodes n hmem).probe p hp).asleep hkey
  have hW : Network.Watched ∅ ∅ ∅
      (withNode { net with lastEvent := some { kind := .startProbe, first := n.id.toNat } }
        key fun n ↦ { n with role := .probe q }) := by
    refine hbegin.toWatched.withNode (fun _ ↦ rfl) (fun m hm hmkey ↦ ?_) fun m hm _ ↦
      hbegin.awaken.nodes m hm
    obtain rfl := eq_of_key_eq hM.nodup hm hmem (hmkey.trans hkey.symm)
    refine ⟨(hM.nodes m hm).once, (hM.nodes m hm).roster, fun q' hq' ↦ ?_⟩
    obtain rfl := Option.some.inj hq'
    have hknows : q.Knows ∅ net.flows m.key ∅ ∅ :=
      knows_of_start (hM.nodes m hm) hp hidle hstart hsub fun e he ↦ (hsound e he).1
    exact hknows
  refine hbegin.setProbe hn hp hW (by rintro g ⟨⟩) (fun _ _ _ _ _ hout ↦ hout)
    fun _ g hg _ f stops hf hlive ht ↦ ?_
  obtain ⟨c, hc⟩ := hall g hg (by rw [show net.flows.find? g = some f from hf]; exact hlive)
  have honly : ∀ c', (g, c') ∈ flows → c' = ⟨f.processed, stops⟩ := fun c' hc' ↦
    Except.ok.inj ((hsound _ hc').2.symm.trans (ht.chainOf hM.nodup hf))
  exact Probe.hears_of_start hstart (honly c hc ▸ hc) honly

/-- **A probe that is stopped forgets all flows.** -/
theorem minded_stopProbe (hl : Leads (stopProbe key) net () net') (hM : net.Minded ∅ ∅ ∅ V) :
    net'.Minded {key} ∅ ∅ V := by
  have hother : ∀ m ∈ net.nodes, (m.key = key → m.probe? = none) →
      m.Informed {key} net.flows ∅ ∅ := by
    intro m hm hplain
    obtain ⟨honce, hroster, hprobe⟩ := hM.nodes m hm
    refine ⟨honce, hroster, fun p hp ↦ { hprobe p hp with asleep := fun hmkey ↦ ?_ }⟩
    exact absurd ((hplain hmkey).symm.trans hp) (by simp)
  obtain ⟨n, hn, ⟨hplain, rfl⟩ | ⟨p, hp, rfl⟩⟩ := hl.stopProbe
  all_goals
    obtain ⟨hmem, hkey⟩ := nodeAt?_eq_some hn
    have hbegin : Network.Minded ∅ ∅ ∅ V
        { net with lastEvent := some { kind := .stopProbe, first := n.id.toNat } } := hM.of_face rfl
  · refine { hbegin with nodes := fun m hm ↦ hother m hm fun hmkey ↦ ?_ }
    exact eq_of_key_eq hM.nodup hm hmem (hmkey.trans hkey.symm) ▸ hplain
  · have hW : Network.Watched {key} ∅ ∅
        (withNode { net with lastEvent := some { kind := .stopProbe, first := n.id.toNat } }
          key fun n ↦ { n with role := .probe p.stop }) := by
      refine hbegin.toWatched.withNode (fun _ ↦ rfl) (fun m hm hmkey ↦ ?_)
        fun m hm hne ↦ hother m hm fun hmkey ↦ absurd hmkey hne
      refine ⟨(hM.nodes m hm).once, (hM.nodes m hm).roster, fun q hq ↦ ?_⟩
      obtain rfl := Option.some.inj hq
      exact .of_nil rfl rfl fun _ ↦ rfl
    exact hbegin.setProbe hn hp hW (by rintro g ⟨⟩) (fun _ _ _ _ _ hout ↦ hout) (by rintro ⟨⟩)

/-- A probe that was asleep is started. -/
theorem ends_startProbe (hM : net.Minded {key} ∅ ∅ V) :
    Ends (startProbe key) net B fun _ ↦ Network.Minded ∅ ∅ ∅ V :=
  (steady_startProbe key).ends fun _ _ hl ↦ minded_startProbe hl hM

/-- A probe is put to sleep. -/
theorem ends_stopProbe (hM : net.Minded ∅ ∅ ∅ V) :
    Ends (stopProbe key) net B fun _ ↦ Network.Minded {key} ∅ ∅ V :=
  (steady_stopProbe key).ends fun _ _ hl ↦ minded_stopProbe hl hM

end Engine

/-! ### Changes

All changes together. Where a change is broken off the notes are as they should be, because that is
what the steps in between were shown to keep up. -/

/-- Widening takes no headers from a flow. -/
theorem isAlive_enlargeFlow (bytes : Nat) (f : Flow) :
    (Network.enlargeFlow bytes f).isAlive = f.isAlive := by
  have hempty : ∀ s : Space, (s.enlarge bytes).isEmpty = s.isEmpty := fun s ↦ by
    rw [Space.enlarge]
    split
    · rfl
    · cases hs : s.regions <;> simp [Space.isEmpty, Region.enlargeList, hs]
  cases hs : f.processed <;> simp [Network.enlargeFlow, Flow.isAlive, hs, hempty]

/-- Only a probe is widened to one. -/
theorem Node.exists_of_enlarge {bytes : Nat} {q : Probe} (hq : (n.enlarge bytes).probe? = some q) :
    ∃ p, n.probe? = some p ∧ p.enlarge bytes = q := by
  cases hrole : n.role with
  | rule r => simp [Node.enlarge, Node.probe?, hrole] at hq
  | source => simp [Node.enlarge, Node.probe?, hrole] at hq
  | probe p =>
    exact ⟨p, by rw [Node.probe?, hrole], by simpa [Node.enlarge, Node.probe?, hrole] using hq⟩

/-- What a node contributes to a way is not widened. -/
theorem Node.hop_enlarge (bytes : Nat) (n : Node) : (n.enlarge bytes).hop = n.hop := by
  funext port
  cases hrole : n.role <;> simp [Node.hop, Node.enlarge, Node.type, Node.table?, Node.rule?, hrole]

/-- A condition over the length of the headers is widened with them. -/
theorem Condition.alike_widened {q : Condition} {n m : Nat} (hq : q.Spaces (·.Over n)) :
    q.Alike (Space.AskWidens n m) (q.enlarge m) := by
  induction q with
  | and a b iha ihb => exact .and (iha hq.1) (ihb hq.2)
  | or a b iha ihb => exact .or (iha hq.1) (ihb hq.2)
  | not a ih => exact .not (ih hq)
  | header t => exact .header ⟨hq.2, hq.1.ge, rfl⟩
  | always => exact .always
  | never => exact .never
  | path ps => exact .path ps

/-- **A probe that has heard of a flow has heard of it with wider headers too.** -/
theorem Probe.Hears.enlarge {c : Chain} {n m : Nat} (hears : p.Hears h c) (hp : p.Fit n)
    (hc : c.Over n) : (p.enlarge m).Hears h ⟨c.processed.map fun s ↦ s.enlarge m, c.hops⟩ := by
  have halike : c.Alike (Space.Widens n m) ⟨c.processed.map fun s ↦ s.enlarge m, c.hops⟩ := by
    refine ⟨?_, rfl⟩
    cases hs : c.processed with
    | none => exact .none
    | some s => exact .some (Space.widens_enlarge (hc s hs))
  have hcheck : ∀ {q : Condition}, q.Spaces (·.Over n) → ∀ {r}, q.check c = .ok r →
      (q.enlarge m).check ⟨c.processed.map fun s ↦ s.enlarge m, c.hops⟩ = .ok r := by
    intro q hq r hr
    obtain ⟨_, hr', rfl⟩ := (Casting.widening n m).check halike (Condition.alike_widened hq) r hr
    exact hr'
  obtain ⟨passes, hfilter, hpass⟩ := hears
  refine ⟨passes, hcheck hp.filter hfilter, fun hpasses ↦ ?_⟩
  obtain ⟨r, htest, hr⟩ := hpass hpasses
  exact ⟨r, hcheck hp.test htest, hr⟩

/-- A probe asks about wider headers, and keeps its notes. -/
theorem Node.Informed.enlarge {F : Arena Flow} {X : Set Handle} {bytes : Nat}
    (hn : n.Informed S F X U) : (n.enlarge bytes).Informed S F X U := by
  refine ⟨hn.once, hn.roster, fun q hq ↦ ?_⟩
  obtain ⟨p, hp, rfl⟩ := Node.exists_of_enlarge hq
  obtain ⟨⟨honce, hcount⟩, hidle, hasleep, hknown⟩ := hn.probe p hp
  exact ⟨⟨honce, hcount⟩, hidle, hasleep, hknown⟩

/-- Unless a precondition was broken, what is known of probes is kept by the change. -/
def Outcome.Informs (V : Set Handle) (o : Outcome α) : Prop :=
  Faultless o.result → o.network.Minded ∅ ∅ ∅ V

/-- A change of the answer does not matter. -/
theorem Outcome.Informs.map {β : Type} {o : Outcome α} {k : α → β} (ho : o.Informs V) :
    (o.map k).Informs V := by
  intro hfaultless
  refine ho fun f hf ↦ hfaultless f ?_
  rw [Outcome.map, hf]
  rfl

namespace Network

open Outcome

theorem informs_refused {e : NetworkError} (hM : net.Minded ∅ ∅ ∅ V) :
    Informs V (refused net e : Outcome α) :=
  fun _ ↦ hM

theorem informs_done {a : α} (hM : net.Minded ∅ ∅ ∅ V) : Informs V (done net a) := fun _ ↦ hM

/-- **A change that keeps what is known of probes**, however it ends. -/
theorem informs_carryOut {change : Engine α} (hM : net.Minded ∅ ∅ ∅ V)
    (hchange : Minds ∅ ∅ V change) : Informs V (net.carryOut change) := by
  intro hfaultless
  have hbegin : Minded ∅ ∅ ∅ V { net with budget := net.budget.reset } := hM.of_face rfl
  have hrun := hchange _ hbegin []
  rw [carryOut] at hfaultless ⊢
  simp only [EStateM.run] at hfaultless ⊢
  cases hout : change ⟨{ net with budget := net.budget.reset }, []⟩ with
  | ok a p =>
    rw [hout] at hrun
    exact hrun
  | error e p =>
    rw [hout] at hrun hfaultless
    cases e with
    | overrun o => exact Minded.of_face hrun rfl
    | fault f => exact absurd rfl (hfaultless f)

theorem informs_addTable {id : TableId} {ports : List Port} (hM : net.Minded ∅ ∅ ∅ V) :
    Informs V (net.addTable id ports) := by
  rw [addTable]
  split
  · exact informs_refused hM
  · split
    · exact informs_refused hM
    · exact informs_done (hM.of_face rfl)

theorem informs_removeTable {id : TableId} (hM : net.Minded ∅ ∅ ∅ V) :
    Informs V (net.removeTable id) := by
  rw [removeTable]
  split
  · exact informs_refused hM
  · exact informs_carryOut hM <| (aside_setEvent _).minds.bind fun _ ↦
      (Minds.forM minds_removeRuleNode _).bind fun _ ↦
      (aside_update (by exact fun _ ↦ rfl)).minds

theorem informs_addRule {spec : RuleSpec} (hM : net.Minded ∅ ∅ ∅ V) :
    Informs V (net.addRule spec) := by
  rw [addRule]
  cases hnode : net.ruleNode spec with
  | error e => exact informs_refused hM
  | ok node =>
    obtain ⟨t, w, -, rfl⟩ := of_ruleNode hnode
    refine informs_carryOut hM <| (aside_setEvent _).minds.bind fun _ ↦
      (Minds.forM (fun _ ↦ minds_removeRuleNode _) _).bind fun _ mid hmid ↦ ?_
    refine (ends_addNode hmid (fun _ ↦ rfl) fun _ ↦ ⟨rfl, by rintro p ⟨⟩⟩).bind
      fun key mid hend ↦ ?_
    exact ((aside_relate key).minds.bind fun _ ↦
      (aside_connect key).minds.bind fun _ ↦ (minds_takeWon key).bind fun _ ↦
      (minds_pull key).bind fun _ ↦ minds_pure) mid hend.1.awaken

/-- A change of a node that must be of a certain type. -/
theorem informs_expect {id : NodeId} {type : NodeType} {expected : ExpectedRole}
    {k : Node → Outcome α} (hM : net.Minded ∅ ∅ ∅ V) (hk : ∀ m, Informs V (k m)) :
    Informs V (match net.expect id type expected with
      | .error e => .refused net e
      | .ok m => k m) := by
  split
  · exact informs_refused hM
  · exact hk _

theorem informs_removeRule {id : NodeId} (hM : net.Minded ∅ ∅ ∅ V) :
    Informs V (net.removeRule id) :=
  informs_expect hM fun _ ↦ informs_carryOut hM <| (aside_setEvent _).minds.bind fun _ ↦
    minds_removeRuleNode _

theorem informs_addLink {l : Link} (hM : net.Minded ∅ ∅ ∅ V) : Informs V (net.addLink l) := by
  rw [addLink]
  split
  · exact informs_done hM
  · exact informs_carryOut hM <| (aside_setEvent _).minds.bind fun _ ↦
      (aside_update (by exact fun _ ↦ rfl)).minds.bind fun _ ↦ minds_connectLink l

theorem informs_removeLink {l : Link} (hM : net.Minded ∅ ∅ ∅ V) : Informs V (net.removeLink l) := by
  rw [removeLink]
  split
  · exact informs_refused hM
  · exact informs_carryOut hM <| (aside_setEvent _).minds.bind fun _ ↦
      (minds_disconnectLink l).bind fun _ ↦
      (aside_update (by exact fun _ ↦ rfl)).minds

theorem informs_addSource {space : Space} {ports : List Port} (hM : net.Minded ∅ ∅ ∅ V) :
    Informs V (net.addSource space ports) := by
  rw [addSource]
  split
  · exact informs_refused hM
  split
  · exact informs_refused hM
  · refine informs_carryOut (hM.of_face rfl) <| (aside_setEvent _).minds.bind fun _ mid hmid ↦ ?_
    refine (ends_addNode hmid (fun _ ↦ rfl) fun _ ↦ ⟨rfl, by rintro p ⟨⟩⟩).bind
      fun key mid hend ↦ ?_
    obtain ⟨hmid, hn⟩ := hend
    refine .steady_bind (tame_connect key).steady fun _ mid' hconnect ↦ ?_
    have hmid' := (hconnect.minded (aside_connect key).minds hmid).awaken
    -- the node is still a source, so its flow may be listed already
    have hcore := (hconnect.core?_eq (tame_connect key) hmid.nodup).trans
      (Layout.core?_of_nodeAt? hn)
    obtain ⟨n, hn', hsame⟩ := exists_nodeAt? hcore
    obtain ⟨hmem, hkey⟩ := nodeAt?_eq_some hn'
    have hrole : n.role = .source := role_of_kind (congrArg Core.kind hsame)
    rw [ends_insertFlow_bind]
    refine .steady_bind (tame_alterNode _ (by exact fun _ ↦ rfl)).steady fun _ net₃ hlist ↦ ?_
    obtain ⟨-, rfl⟩ := leads_alterNode.1 hlist
    have hself := Arena.find?_insert_self (v := .root key mid'.flows.nextHandle space) hmid'.valid
    have hparent : ∀ p, (Flow.root key mid'.flows.nextHandle space).parent = some p →
        mid'.flows.Knows p := by
      rintro p ⟨⟩
    have hchildless := hmid'.childless hparent
    have hone : ∀ m ∈ mid'.nodes, m.key = key → m = n := fun m hm hmkey ↦
      eq_of_key_eq hmid'.nodup hm hmem (hmkey.trans hkey.symm)
    have hroot := (hmid'.insert hparent).enlist hself rfl (fun m hm _ hh ↦ by
      obtain ⟨f, hf, -⟩ := (hmid'.nodes m hm).roster _ hh
      exact absurd ((Arena.find?_nextHandle hmid'.valid).symm.trans hf) (by simp)) hchildless
      (.inr fun m hm hmkey ↦ by rw [hone m hm hmkey, Node.probe?, hrole])
    refine (greets_arrive key _ _ hroot
      ⟨⟨_, hself, rfl⟩, fun m' hm' hmkey hother ↦ ?_, hchildless⟩).bind
      fun _ _ hend ↦ ends_pure.2 hend
    obtain ⟨m, hm, rfl⟩ := List.mem_map.1 hm'
    split at hother
    · obtain rfl := hone m hm (beq_iff_eq.1 ‹_›)
      exact absurd hrole hother
    · rename_i hne
      rw [if_neg hne] at hmkey
      exact absurd (beq_iff_eq.2 hmkey) hne

theorem informs_removeSource {id : NodeId} (hM : net.Minded ∅ ∅ ∅ V) :
    Informs V (net.removeSource id) :=
  informs_expect hM fun _ ↦ informs_carryOut hM <| (aside_setEvent _).minds.bind fun _ ↦
    minds_removePlainNode _

/-- **A new probe is asleep while flows are pulled to it**, and hears of all of them when it is
started. -/
theorem informs_addProbe {spec : ProbeSpec} (hM : net.Minded ∅ ∅ ∅ V) :
    Informs V (net.addProbe spec) := by
  rw [addProbe]
  split
  · exact informs_refused hM
  split
  · exact informs_refused hM
  · refine informs_carryOut (hM.of_face rfl) fun mid hmid ↦ ?_
    refine (ends_addNode hmid (fun _ ↦ rfl) fun _ ↦
      ⟨rfl, by rintro p ⟨⟩; exact ⟨rfl, rfl, rfl⟩⟩).bind fun key mid hend ↦ ?_
    exact ((aside_connect key).minds.ends hend.1).bind fun _ _ hmid ↦
      ((minds_pull key).ends hmid).bind fun _ _ hmid ↦
      (ends_startProbe hmid).bind fun _ _ hend ↦ ends_pure.2 hend

theorem informs_removeProbe {id : NodeId} (hM : net.Minded ∅ ∅ ∅ V) :
    Informs V (net.removeProbe id) :=
  informs_expect hM fun _ ↦ informs_carryOut hM fun _ hmid ↦
    (ends_stopProbe hmid).bind fun _ mid hmid ↦
    minds_removePlainNode _ mid hmid.awaken

/-- A probe that is restarted hears of all flows at its node. -/
theorem informs_restartProbe {id : NodeId} (hM : net.Minded ∅ ∅ ∅ V) :
    Informs V (net.restartProbe id) :=
  informs_expect hM fun _ ↦ informs_carryOut hM fun _ hmid ↦
    (ends_stopProbe hmid).bind fun _ _ hmid ↦
    ends_startProbe hmid

/-- **Widening changes nothing for probes**, if all headers have one length or nothing has to be
heard. -/
theorem informs_expand {bytes : Nat} (hM : net.Minded ∅ ∅ ∅ V) (hfit : net.Fit ∨ ∀ h, h ∈ V) :
    Informs V (net.expand bytes) := by
  rw [expand]
  split
  · exact informs_done hM
  · have hflow : ∀ g f', (net.flows.map fun _ f ↦ enlargeFlow bytes f).find? g = some f' →
        ∃ f, net.flows.find? g = some f ∧ enlargeFlow bytes f = f' := fun g f' hf' ↦
      Option.map_eq_some_iff.1 (Arena.find?_map.symm.trans hf')
    refine informs_done
      ⟨?_, fun g f' p hf' hp ↦ ?_, by rintro h ⟨⟩, fun m' hm' q hq hrunning h hh hout ↦ ?_⟩
    · refine hM.toWatched.of_map (e := Node.enlarge bytes) rfl rfl ?_ (fun _ ↦ rfl) fun n hn ↦ ?_
      · exact Arena.valid_map (k := fun _ f ↦ enlargeFlow bytes f) hM.valid
      · refine ((hM.nodes n hn).withFlows subset_rfl fun g f hf ↦ ?_).enlarge
        exact ⟨enlargeFlow bytes f, by rw [Arena.find?_map, hf]; rfl, rfl,
          .inr (.inr (isAlive_enlargeFlow bytes f))⟩
    · obtain ⟨f, hf, rfl⟩ := hflow g f' hf'
      exact (hM.parents g f p hf hp).map
    · obtain ⟨m, hm, rfl⟩ := List.mem_map.1 hm'
      obtain ⟨p, hp, rfl⟩ := Node.exists_of_enlarge hq
      have hfit := hfit.resolve_right fun hall ↦ hout (hall h)
      intro f' stops hf' hlive ht
      obtain ⟨f, hf, rfl⟩ := hflow h f' hf'
      refine (hM.heard m hm p hp hrunning h hh hout f stops hf
        (isAlive_enlargeFlow bytes f ▸ hlive) ?_).enlarge
        ((hfit.nodes m hm).probe hp) (hfit.flows h f hf).processed
      refine ht.back_all (fun g k' hk' ↦ ?_) fun m' hm' ↦ ?_
      · obtain ⟨k, hk, rfl⟩ := hflow g k' hk'
        exact ⟨k, hk, rfl⟩
      · obtain ⟨m, hm, rfl⟩ := List.mem_map.1 hm'
        exact ⟨m, hm, rfl, (Node.hop_enlarge bytes m).symm, List.Subset.refl _⟩

/-- **Every change keeps what is known of probes.** -/
theorem informs_apply (hM : net.Minded ∅ ∅ ∅ V) (hfit : net.Fit ∨ ∀ h, h ∈ V) (m : Mutation) :
    Informs V (net.apply m) := by
  cases m with
  | addTable id ports => exact (informs_addTable hM).map
  | removeTable id => exact (informs_removeTable hM).map
  | addRule spec => exact (informs_addRule hM).map
  | removeRule id => exact (informs_removeRule hM).map
  | addLink l => exact (informs_addLink hM).map
  | removeLink l => exact (informs_removeLink hM).map
  | addSource space ports => exact (informs_addSource hM).map
  | addSourcePattern p ports => exact (informs_addSource hM).map
  | removeSource id => exact (informs_removeSource hM).map
  | addProbe spec => exact (informs_addProbe hM).map
  | removeProbe id => exact (informs_removeProbe hM).map
  | restartProbe id => exact (informs_restartProbe hM).map
  | expand bytes => exact (informs_expand hM hfit).map
  | audit table => exact fun _ ↦ audit_network ▸ hM

/-- In a new network there is no probe. -/
theorem minded_new (bytes : Nat) (settings : Settings) (clock : Clock) :
    (Network.new bytes settings clock).Minded ∅ ∅ ∅ V :=
  ⟨⟨List.nodup_nil, by rintro n ⟨⟩, Arena.valid_empty, by rintro n ⟨⟩⟩,
    fun h f _ hf ↦ absurd hf (Arena.find?_empty_ne h f), by rintro h ⟨⟩, by rintro n ⟨⟩⟩

/-- **In every network that can be attained, what a probe has noted are flows with headers at its
node.** -/
theorem Attained.watched (ha : Attained net) : net.Watched ∅ ∅ ∅ := by
  refine Minded.toWatched (V := Set.univ) ?_
  induction ha with
  | new bytes settings clock => exact minded_new bytes settings clock
  | apply m _ hfaultless ih => exact informs_apply ih (.inr Set.mem_univ) m hfaultless

end Network

end HeaderFlow
