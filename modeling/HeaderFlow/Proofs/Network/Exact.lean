import HeaderFlow.Proofs.Network.Mutation

/-!
# Pipes are exactly what nodes and links make of them

`Layout.WellFormed` says of a pipe that is listed what it must be like. `Layout.Exact` says what is
missing for the pipes to be determined: **every side that is there is listed**, once, both sides
have the pattern that the two nodes have in common, and no two pipes have the same ends.

Each way in which a layout changes keeps this up. Only a new pipe has a condition: there must not be
one with its ends already. A new node has no pipes yet, and the pipes built for it all have
different ends (`Network.nodup_wiresOf`); a new link is along no pipe yet.

## A node that is linked to itself

A port of a node may be linked to another port of the same node. Then a pipe leads from the node to
itself, and going through the links at its outgoing ports and through those at its incoming ports
finds it twice. It is built once, with those that leave (`nodup_outgoing`), since the search for
senders passes over the node itself (`nodup_incoming`).

## Steps and loops

`Leads.exact_addPipe` and `Leads.exact_removePipe` are the two steps. Connecting is a loop of the
first, with the wires that are still to come in the invariant (`Plugs`), and disconnecting a loop of
the second. In between the networks differ in their pipes only (`Rewired`).
-/

namespace HeaderFlow

variable {L : Layout} {net net' : Network} {fwd back h : Handle} {w w' : Wire} {a b : Pipe}
  {n m : Core} {key : NodeKey}

/-- Where a wire begins and where it ends. -/
def Wire.ends (w : Wire) : (NodeKey × Port) × NodeKey × Port :=
  ((w.sender, w.outPort), w.receiver, w.inPort)

namespace Layout

/-- Both sides have the pattern of the headers that the one node can send and the other accepts. -/
def Tuned (a b : Pipe) (n m : Core) : Prop :=
  b.pattern = a.pattern ∧ ∃ p, m.accepts = some p ∧ p.intersect n.sends = .ok (some a.pattern)

/-- Pipes are recorded where they should be and nowhere else, and no two are for one purpose. -/
structure Exact (L : Layout) : Prop extends L.WellFormed where
  prevOnce : ∀ key, (L.prev key).Nodup
  listed : ∀ h a, L.pipes.find? h = some a → h ∈ L.next a.node ∨ h ∈ L.prev a.node
  tuned : ∀ key, ∀ fwd ∈ L.next key, ∃ back a b n m, L.Joins fwd back a b n m ∧ Tuned a b n m
  unique : ∀ fwd fwd' w w', L.Runs fwd w → L.Runs fwd' w' → w.ends = w'.ends → fwd = fwd'

/-- The wire leads along a link from an exit to an entrance and has the pattern it should have. -/
def Warrants (L : Layout) (w : Wire) : Prop :=
  ∃ n m p, L.core? w.sender = some n ∧ L.core? w.receiver = some m ∧
    w.outPort ∈ n.outPorts.toList ∧ w.inPort ∈ m.inPorts.toList ∧
    ⟨w.outPort, w.inPort⟩ ∈ L.links ∧ m.accepts = some p ∧
    p.intersect n.sends = .ok (some w.pattern)

/-- A wire that is warranted may be built. -/
theorem Warrants.builds (hw : L.Warrants w) : L.Builds w := by
  obtain ⟨n, m, p, hn, hm, hout, hin, hlink, hp, hpattern⟩ := hw
  exact ⟨n, m, p, hn, hm, hout, hin, hlink, hp, (Pattern.intersect_spec hpattern).1 _ rfl⟩

/-! ### Pipes that come and go -/

/-- **Building a pipe** where there is none yet. -/
theorem Exact.plug (hL : L.Exact) (hw : L.Warrants w)
    (hnew : ∀ fwd w', L.Runs fwd w' → w'.ends ≠ w.ends) : (L.plug w).Exact where
  toWellFormed := hL.toWellFormed.plug hw.builds
  prevOnce key := by
    simp only [Layout.plug]
    split
    · refine List.concat_eq_append ▸ (hL.prevOnce key).concat fun hmem ↦ ?_
      exact hL.live (.inr hmem) (front_fresh hL.pipes).2.1
    · exact hL.prevOnce key
  listed h a ha := by
    rw [find?_plug hL.pipes] at ha
    split at ha
    · obtain rfl := Option.some.inj ha
      exact .inl (mem_next_plug.2 (.inr ⟨rfl, ‹_›⟩))
    split at ha
    · obtain rfl := Option.some.inj ha
      exact .inr (mem_prev_plug.2 (.inr ⟨rfl, ‹_›⟩))
    · exact (hL.listed h a ha).imp (fun hh ↦ mem_next_plug.2 (.inl hh)) fun hh ↦
        mem_prev_plug.2 (.inl hh)
  tuned key fwd hfwd := by
    rcases mem_next_plug.1 hfwd with hfwd | ⟨rfl, rfl⟩
    · obtain ⟨back, a, b, n, m, hj, ht⟩ := hL.tuned key fwd hfwd
      exact ⟨back, a, b, n, m, hj.plug hL.pipes, ht⟩
    · obtain ⟨n, m, hj⟩ := joins_plug hL.pipes hw.builds
      obtain ⟨n', m', p, hn, hm, -, -, -, hp, hpattern⟩ := hw
      obtain rfl := Option.some.inj (hn.symm.trans hj.sender)
      obtain rfl := Option.some.inj (hm.symm.trans hj.receiver)
      exact ⟨_, _, _, _, _, hj, rfl, p, hp, hpattern⟩
  unique fwd fwd' w₁ w₂ hw₁ hw₂ hends := by
    rw [runs_plug hL.toWellFormed hw.builds] at hw₁ hw₂
    rcases hw₁ with hw₁ | ⟨rfl, rfl⟩
    · rcases hw₂ with hw₂ | ⟨rfl, rfl⟩
      · exact hL.unique fwd fwd' w₁ w₂ hw₁ hw₂ hends
      · exact absurd hends (hnew fwd w₁ hw₁)
    · rcases hw₂ with hw₂ | ⟨rfl, rfl⟩
      · exact absurd hends.symm (hnew fwd' w₂ hw₂)
      · rfl

/-- **Removing a pipe** takes both of its sides and both of its entries. -/
theorem Exact.unplug {h' : Handle} {side other : Pipe} (hL : L.Exact)
    (hp : L.Pair h h' side other) : (L.unplug h h').Exact where
  toWellFormed := hL.toWellFormed.unplug hp
  prevOnce key := ((hL.prevOnce key).filter _).filter _
  listed k a ha := by
    have hne : k ≠ h ∧ k ≠ h' := by
      rw [Layout.unplug, without, without, Arena.find?_erase, Arena.find?_erase] at ha
      constructor
      · rintro rfl
        simp at ha
      · rintro rfl
        simp at ha
    rw [find?_unplug_of_ne hne] at ha
    exact (hL.listed k a ha).imp (fun hk ↦ mem_next_unplug.2 ⟨hk, hne⟩) fun hk ↦
      mem_prev_unplug.2 ⟨hk, hne⟩
  tuned key fwd hfwd := by
    obtain ⟨hmem, hne⟩ := mem_next_unplug.1 hfwd
    obtain ⟨back, a, b, n, m, hj, ht⟩ := hL.tuned key fwd hmem
    exact ⟨back, a, b, n, m, hj.unplug hp hne, ht⟩
  unique fwd fwd' w w' hw hw' hends :=
    hL.unique fwd fwd' w w' ((runs_unplug hL.toWellFormed hp).1 hw).1
      ((runs_unplug hL.toWellFormed hp).1 hw').1 hends

/-! ### Nodes and links that come and go -/

/-- A new node has no pipes. -/
theorem Exact.grow {c : Node} (hL : L.Exact) (hkey : c.key = L.nextKey) (hc : c.core.Proper)
    (hadmits : L.registry.Admits L.cores c.core) : (L.grow c).Exact where
  toWellFormed := hL.toWellFormed.grow hkey hc hadmits
  prevOnce := hL.prevOnce
  listed := hL.listed
  tuned key fwd hfwd := by
    obtain ⟨back, a, b, s, r, hj, ht⟩ := hL.tuned key fwd hfwd
    exact ⟨back, a, b, s, r, hj.grow, ht⟩
  unique := hL.unique

/-- A node without pipes may go. -/
theorem Exact.shrink {c : Node} (hL : L.Exact) (hc : c.core ∈ L.cores) (hi : L.Isolated c.key) :
    (L.shrink c).Exact where
  toWellFormed := hL.toWellFormed.shrink hc hi
  prevOnce := hL.prevOnce
  listed := hL.listed
  tuned key fwd hfwd := by
    obtain ⟨back, a, b, s, r, hj, ht⟩ := hL.tuned key fwd hfwd
    exact ⟨back, a, b, s, r, hj.shrink hi, ht⟩
  unique := hL.unique

/-- Other records, as long as there is a link for each pipe. -/
theorem Exact.refile {r : Registry} {t : Topology} (hL : L.Exact) (hr : r.Agrees L.cores)
    (ht : t.Mirrored) (hlinks : ∀ fwd w, L.Runs fwd w → ⟨w.outPort, w.inPort⟩ ∈ t.links) :
    (L.refile r t).Exact where
  toWellFormed := hL.toWellFormed.refile hr ht hlinks
  prevOnce := hL.prevOnce
  listed := hL.listed
  tuned key fwd hfwd := by
    obtain ⟨back, a, b, s, r, hj, ht⟩ := hL.tuned key fwd hfwd
    exact ⟨back, a, b, s, r, { hj with link := hlinks _ _ hj.runs }, ht⟩
  unique := hL.unique

/-- Pipes do not depend on influences. -/
theorem Exact.reorder {I : Arena Influence} {lost won : NodeKey → List Handle} (hL : L.Exact) :
    (L.reorder I lost won).Exact where
  toWellFormed := hL.toWellFormed.reorder
  prevOnce := hL.prevOnce
  listed := hL.listed
  tuned key fwd hfwd := by
    obtain ⟨back, a, b, s, r, hj, ht⟩ := hL.tuned key fwd hfwd
    exact ⟨back, a, b, s, r, { hj with }, ht⟩
  unique := hL.unique

/-- Patterns are widened on both sides of a pipe alike. -/
theorem Tuned.enlarge {bytes : Nat} (ht : Tuned a b n m) :
    Tuned (a.enlarge bytes) (b.enlarge bytes) (n.enlarge bytes) (m.enlarge bytes) := by
  obtain ⟨hpattern, p, hp, hcommon⟩ := ht
  refine ⟨?_, p.enlarge bytes, Core.accepts_enlarge hp, Pattern.intersect_enlarge hcommon⟩
  rw [Pipe.enlarge, Pipe.enlarge, hpattern]

theorem Exact.enlarge {bytes : Nat} (hL : L.Exact) : (L.enlarge bytes).Exact where
  toWellFormed := hL.toWellFormed.enlarge
  prevOnce := hL.prevOnce
  listed h a' ha' := by
    rw [Layout.enlarge, Arena.find?_map, Option.map_eq_some_iff] at ha'
    obtain ⟨a, ha, rfl⟩ := ha'
    exact hL.listed h a ha
  tuned key fwd hfwd := by
    obtain ⟨back, a, b, s, r, hj, ht⟩ := hL.tuned key fwd hfwd
    exact ⟨back, a.enlarge bytes, b.enlarge bytes, _, _, hj.enlarge, ht.enlarge⟩
  unique fwd fwd' w w' hw hw' hends := by
    obtain ⟨v, hv, rfl⟩ := runs_enlarge.1 hw
    obtain ⟨v', hv', rfl⟩ := runs_enlarge.1 hw'
    exact hL.unique fwd fwd' v v' hv hv' hends

end Layout

/-! ### Which pipes are built -/

theorem PortSet.nodup (s : PortSet) : s.toList.Nodup := s.sorted.imp UInt32.ne_of_lt

/-- What is built is what the two nodes have in common. -/
theorem Node.intersect_of_overlap {r : Node} {sends pattern : Pattern}
    (ho : r.overlap sends = .ok (some pattern)) :
    ∃ p, r.accepts = some p ∧ p.intersect sends = .ok (some pattern) := by
  rw [Node.overlap] at ho
  cases hp : r.accepts with
  | none =>
    simp only [hp] at ho
    exact absurd (Except.ok.inj ho) (by simp)
  | some p =>
    simp only [hp] at ho
    exact ⟨p, rfl, ho⟩

/-- The members that a mapping answers are different if those for one argument are, and if the
argument can be told from each. -/
theorem Checked.nodup_flatMap {α β γ ρ : Type} {k : α → Checked ρ} {list : ρ → List β}
    {ends : β → γ} {l : List α} {out : List ρ} (tag : γ → α) (hout : l.mapM k = .ok out)
    (hl : l.Nodup) (hnodup : ∀ a ∈ l, ∀ r, k a = .ok r → ((list r).map ends).Nodup)
    (htag : ∀ a ∈ l, ∀ r, k a = .ok r → ∀ b ∈ list r, tag (ends b) = a) :
    ((out.flatMap list).map ends).Nodup := by
  induction l generalizing out with
  | nil =>
    obtain rfl := Except.ok.inj hout
    simp
  | cons a l ih =>
    obtain ⟨r, rs, hr, hrs, rfl⟩ := Checked.mapM_cons_eq_ok.1 hout
    obtain ⟨ha, hl⟩ := List.nodup_cons.1 hl
    rw [List.flatMap_cons, List.map_append, List.nodup_append]
    refine ⟨hnodup a List.mem_cons_self r hr,
      ih hrs hl (fun a ha ↦ hnodup a (List.mem_cons_of_mem _ ha)) fun a ha ↦
        htag a (List.mem_cons_of_mem _ ha), ?_⟩
    rintro e he e' he' rfl
    obtain ⟨b, hb, rfl⟩ := List.mem_map.1 he
    obtain ⟨b', hb', hends⟩ := List.mem_map.1 he'
    obtain ⟨r', hr', hb'⟩ := List.mem_flatMap.1 hb'
    obtain ⟨a', ha', hk'⟩ := ((Checked.of_mapM_eq_ok hrs).2 r').1 hr'
    have hsame : a' = a := by
      rw [← htag a' (List.mem_cons_of_mem _ ha') r' hk' b' hb', hends]
      exact htag a List.mem_cons_self r hr b hb
    exact ha (hsame ▸ ha')

namespace Network

variable {s r : Node} {outPort inPort : Port} {ns : List Node} {ws : List Wire}

/-- Wires from one sender by one port differ in their receivers. -/
theorem nodup_wiresTo (hws : wiresTo s outPort inPort ns = .ok ws) (hns : (ns.map Node.key).Nodup) :
    (ws.map Wire.ends).Nodup := by
  have hsub : (ws.map Wire.receiver).Sublist (ns.map Node.key) := by
    induction ns generalizing ws with
    | nil =>
      obtain rfl := Except.ok.inj hws
      simp
    | cons n ns ih =>
      simp only [wiresTo, Checked.bind_eq_ok] at hws
      obtain ⟨o, -, more, hmore, hws⟩ := hws
      obtain rfl := Except.ok.inj hws
      have hmore := ih hmore (List.nodup_cons.1 hns).2
      cases o with
      | none => exact hmore.cons _
      | some p => exact hmore.cons_cons _
  refine List.Nodup.of_map (fun e ↦ e.2.1) ?_
  rw [List.map_map]
  exact hns.sublist hsub

/-- Wires to one receiver by one port differ in their senders. -/
theorem nodup_wiresFrom (hws : wiresFrom r outPort inPort ns = .ok ws)
    (hns : (ns.map Node.key).Nodup) : (ws.map Wire.ends).Nodup := by
  have hsub : (ws.map Wire.sender).Sublist (ns.map Node.key) := by
    induction ns generalizing ws with
    | nil =>
      obtain rfl := Except.ok.inj hws
      simp
    | cons n ns ih =>
      simp only [wiresFrom, Checked.bind_eq_ok] at hws
      obtain ⟨o, -, more, hmore, hws⟩ := hws
      obtain rfl := Except.ok.inj hws
      have hmore := ih hmore (List.nodup_cons.1 hns).2
      cases o with
      | none => exact hmore.cons _
      | some p => exact hmore.cons_cons _
  refine List.Nodup.of_map (fun e ↦ e.1.1) ?_
  rw [List.map_map]
  exact hns.sublist hsub

section

variable {n : Node} {wss : List (List (List Wire))}

/-- The pipes that leave a new node. -/
theorem nodup_outgoing (hwss : (n.outPorts.toList.mapM fun q ↦
      (net.targets q).mapM fun p ↦ wiresTo n q p (net.receiversAt p)) = .ok wss)
    (hnodup : (net.nodes.map Node.key).Nodup) (ht : net.topology.Mirrored) :
    (wss.flatten.flatten.map Wire.ends).Nodup ∧ ∀ w ∈ wss.flatten.flatten, w.sender = n.key := by
  have hall : ∀ q uss, ((net.targets q).mapM fun p ↦ wiresTo n q p (net.receiversAt p)) = .ok uss →
      ∀ w ∈ uss.flatten, w.sender = n.key ∧ w.outPort = q := by
    intro q uss huss w hw
    obtain ⟨us, hus, hw⟩ := List.mem_flatten.1 hw
    obtain ⟨p, -, hus⟩ := ((Checked.of_mapM_eq_ok huss).2 us).1 hus
    obtain ⟨m, -, o, -, rfl⟩ := ((of_wiresTo hus).2 w).1 hw
    exact ⟨rfl, rfl⟩
  rw [List.flatten_flatten, ← List.flatMap_def]
  constructor
  · refine Checked.nodup_flatMap (fun e ↦ e.1.2) hwss n.outPorts.nodup (fun q _ uss huss ↦ ?_)
      fun q _ uss huss w hw ↦ (hall q uss huss w hw).2
    rw [← List.flatMap_id]
    refine Checked.nodup_flatMap (fun e ↦ e.2.2) huss (ht.nodupTargets q)
      (fun p _ us hus ↦ nodup_wiresTo hus (hnodup.sublist (List.filter_sublist.map _))) ?_
    intro p _ us hus w hw
    obtain ⟨m, -, o, -, rfl⟩ := ((of_wiresTo hus).2 w).1 hw
    rfl
  · intro w hw
    obtain ⟨uss, huss, hw⟩ := List.mem_flatMap.1 hw
    obtain ⟨q, -, hq⟩ := ((Checked.of_mapM_eq_ok hwss).2 uss).1 huss
    exact (hall q uss hq w hw).1

/-- The pipes that lead to a new node from others. -/
theorem nodup_incoming (hwss : (n.inPorts.toList.mapM fun p ↦
      (net.origins p).mapM fun q ↦ wiresFrom n q p (net.sendersAt q)) = .ok wss)
    (hnodup : (net.nodes.map Node.key).Nodup) (ht : net.topology.Mirrored) :
    (wss.flatten.flatten.map Wire.ends).Nodup ∧ ∀ w ∈ wss.flatten.flatten, w.sender ≠ n.key := by
  have hall : ∀ p uss, ((net.origins p).mapM fun q ↦ wiresFrom n q p (net.sendersAt q)) = .ok uss →
      ∀ w ∈ uss.flatten, w.sender ≠ n.key ∧ w.inPort = p := by
    intro p uss huss w hw
    obtain ⟨us, hus, hw⟩ := List.mem_flatten.1 hw
    obtain ⟨q, -, hus⟩ := ((Checked.of_mapM_eq_ok huss).2 us).1 hus
    obtain ⟨m, -, o, ho, rfl⟩ := ((of_wiresFrom hus).2 w).1 hw
    refine ⟨fun he ↦ ?_, rfl⟩
    -- nothing is built from the node itself here
    rw [Node.overlapOther, if_pos he] at ho
    exact absurd (Except.ok.inj ho) (by simp)
  rw [List.flatten_flatten, ← List.flatMap_def]
  constructor
  · refine Checked.nodup_flatMap (fun e ↦ e.2.2) hwss n.inPorts.nodup (fun p _ uss huss ↦ ?_)
      fun p _ uss huss w hw ↦ (hall p uss huss w hw).2
    rw [← List.flatMap_id]
    refine Checked.nodup_flatMap (fun e ↦ e.1.2) huss (ht.nodupOrigins p)
      (fun q _ us hus ↦ nodup_wiresFrom hus (hnodup.sublist (List.filter_sublist.map _))) ?_
    intro q _ us hus w hw
    obtain ⟨m, -, o, -, rfl⟩ := ((of_wiresFrom hus).2 w).1 hw
    rfl
  · intro w hw
    obtain ⟨uss, huss, hw⟩ := List.mem_flatMap.1 hw
    obtain ⟨p, -, hp⟩ := ((Checked.of_mapM_eq_ok hwss).2 uss).1 huss
    exact (hall p uss hp w hw).1

/-- **No two pipes that are built for a node have the same ends.** A pipe from the node to itself is
built once, with those that leave it. -/
theorem nodup_wiresOf (hws : net.wiresOf n = .ok ws) (hL : net.layout.WellFormed) :
    (ws.map Wire.ends).Nodup := by
  rw [wiresOf_eq hL] at hws
  simp only [Checked.bind_eq_ok] at hws
  obtain ⟨outgoing, hout, incoming, hin, hws⟩ := hws
  obtain rfl := Except.ok.inj hws
  have hnodup : (net.nodes.map Node.key).Nodup := map_key_cores net ▸ hL.nodup
  obtain ⟨hnodupOut, hfrom⟩ := nodup_outgoing hout hnodup hL.mirrored
  obtain ⟨hnodupIn, hto⟩ := nodup_incoming hin hnodup hL.mirrored
  rw [List.flatten_append, List.flatten_append, List.map_append, List.nodup_append]
  refine ⟨hnodupOut, hnodupIn, ?_⟩
  rintro e he e' he' rfl
  obtain ⟨w, hw, rfl⟩ := List.mem_map.1 he
  obtain ⟨w', hw', hends⟩ := List.mem_map.1 he'
  have hsender : w'.sender = w.sender := congrArg (fun e ↦ e.1.1) hends
  exact hto w' hw' (hsender.trans (hfrom w hw))

end

/-- **Every pipe that is built for a node should be there.** -/
theorem warrants_wiresOf {n : Node} (hws : net.wiresOf n = .ok ws) (hn : n ∈ net.nodes)
    (hL : net.layout.WellFormed) :
    ∀ w ∈ ws, net.layout.Warrants w ∧ (w.sender = n.key ∨ w.receiver = n.key) := by
  have hcore : ∀ m ∈ net.nodes, net.layout.core? m.key = some m.core := fun m ↦ core?_core hL.nodup
  intro w hw
  rcases (of_wiresOf hL hws).2.2 w hw with
    ⟨q, hq, p, us, hl, hus, hwu⟩ | ⟨p, hp, q, us, hl, hus, hwu⟩
  · obtain ⟨m, hm, o, ho, rfl⟩ := ((of_wiresTo hus).2 w).1 hwu
    obtain ⟨hm, hpm⟩ := mem_receiversAt.1 hm
    obtain ⟨a, ha, hcommon⟩ := Node.intersect_of_overlap ho
    exact ⟨⟨n.core, m.core, a, hcore n hn, hcore m hm, hq, hpm, hl, ha, hcommon⟩, .inl rfl⟩
  · obtain ⟨m, hm, o, ho, rfl⟩ := ((of_wiresFrom hus).2 w).1 hwu
    obtain ⟨hm, hqm⟩ := mem_sendersAt.1 hm
    rw [Node.overlapOther] at ho
    split at ho
    · exact absurd (Except.ok.inj ho) (by simp)
    · obtain ⟨a, ha, hcommon⟩ := Node.intersect_of_overlap ho
      exact ⟨⟨m.core, n.core, a, hcore m hm, hcore n hn, hqm, hp, hl, ha, hcommon⟩, .inr rfl⟩

end Network

/-! ### Connecting and disconnecting -/

/-- The networks differ at most in their pipes. -/
structure Rewired (net net' : Network) : Prop where
  plan : SamePlan net.layout net'.layout
  flows : net'.flows = net.flows
  roster : net'.roster = net.roster

namespace Rewired

theorem refl (net : Network) : Rewired net net := ⟨.refl _, rfl, rfl⟩

theorem trans {net'' : Network} (h₁ : Rewired net net') (h₂ : Rewired net' net'') :
    Rewired net net'' :=
  ⟨h₁.plan.trans h₂.plan, h₂.flows.trans h₁.flows, h₂.roster.trans h₁.roster⟩

end Rewired

/-- Which wires are warranted does not depend on the pipes. -/
theorem SamePlan.warrants {L' : Layout} (hp : SamePlan L L') (hw : L.Warrants w) :
    L'.Warrants w := by
  obtain ⟨n, m, p, hn, hm, hout, hin, hl, hrest⟩ := hw
  exact ⟨n, m, p, hp.core?.trans hn, hp.core?.trans hm, hout, hin, hp.links ▸ hl, hrest⟩

/-- No wire begins or ends at a node without pipes. -/
theorem Layout.WellFormed.not_touching (hL : L.WellFormed) (hnext : L.next key = [])
    (hprev : L.prev key = []) (hw : L.Runs fwd w) : w.sender ≠ key ∧ w.receiver ≠ key := by
  obtain ⟨back, a, b, n, m, hj, rfl⟩ := hL.joins hw
  exact ⟨Isolated.ne_of_mem hnext hj.next, Isolated.ne_of_mem hprev hj.prev⟩

namespace Engine

/-- **A new pipe** where there is none yet. -/
theorem Leads.exact_addPipe (hl : Leads (Engine.addPipe w) net fwd net') (hL : net.layout.Exact)
    (hw : net.layout.Warrants w) (hnew : ∀ fwd w', net.layout.Runs fwd w' → w'.ends ≠ w.ends) :
    net'.layout.Exact ∧ Rewired net net' ∧
      ∀ k w', net'.layout.Runs k w' ↔ net.layout.Runs k w' ∨ k = fwd ∧ w' = w := by
  obtain ⟨rfl, hlayout, hflows, hroster⟩ := hl.addPipe hw.builds
  refine ⟨hlayout ▸ hL.plug hw hnew, ⟨hlayout ▸ .plug _ w, hflows, hroster⟩, fun k w' ↦ ?_⟩
  rw [hlayout]
  exact Layout.runs_plug hL.toWellFormed hw.builds

/-- Wires are built, with those in the list still to come: they have different ends, and no pipe
that is there has them. -/
structure Plugs (net : Network) (ws : List Wire) (mid : Network) : Prop where
  exact : mid.layout.Exact
  rewired : Rewired net mid
  nodup : (ws.map Wire.ends).Nodup
  fresh : ∀ k w, mid.layout.Runs k w → w.ends ∉ ws.map Wire.ends

/-- One wire has been built. -/
theorem Plugs.step {mid mid' : Network} {ws : List Wire} (hP : Plugs net (w :: ws) mid)
    (hl : Leads (Engine.addPipe w) mid fwd mid') (hw : net.layout.Warrants w) :
    Plugs net ws mid' := by
  obtain ⟨hhead, hnodup⟩ := List.nodup_cons.1 hP.nodup
  obtain ⟨hL, hrewired, hruns⟩ := hl.exact_addPipe hP.exact (hP.rewired.plan.warrants hw)
    fun k w' hw' he ↦ hP.fresh k w' hw' (he ▸ List.mem_cons_self)
  refine ⟨hL, hP.rewired.trans hrewired, hnodup, fun k w' hw' hmem ↦ ?_⟩
  rcases (hruns k w').1 hw' with hw' | ⟨-, rfl⟩
  · exact hP.fresh k w' hw' (List.mem_cons_of_mem _ hmem)
  · exact hhead hmem

/-- **Connecting a node that has no pipes yet.** -/
theorem Leads.exact_connect (hl : Leads (Engine.connect key) net () net') (hL : net.layout.Exact)
    (hnext : net.layout.next key = []) (hprev : net.layout.prev key = []) :
    net'.layout.Exact ∧ Rewired net net' := by
  rw [Engine.connect, leads_node_bind] at hl
  obtain ⟨n, hn, hl⟩ := hl
  rw [leads_ask_bind] at hl
  obtain ⟨ws, hws, hl⟩ := hl
  obtain ⟨hmem, rfl⟩ := nodeAt?_eq_some hn
  have hwarrants := Network.warrants_wiresOf hws hmem hL.toWellFormed
  have hinit : Plugs net ws net := by
    refine ⟨hL, .refl _, Network.nodup_wiresOf hws hL.toWellFormed, fun k w' hw' hmem ↦ ?_⟩
    obtain ⟨w, hw, hends⟩ := List.mem_map.1 hmem
    obtain ⟨hsender, hreceiver⟩ := hL.not_touching hnext hprev hw'
    rcases (hwarrants w hw).2 with he | he
    · exact hsender ((congrArg (fun e ↦ e.1.1) hends).symm.trans he)
    · exact hreceiver ((congrArg (fun e ↦ e.2.1) hends).symm.trans he)
  have hrun : Plugs net [] net' := hl.forM hinit fun w rest mid mid' hw hP hstep ↦ by
    obtain ⟨fwd, hadd⟩ := hstep.discard
    exact hP.step hadd (hwarrants w hw).1
  exact ⟨hrun.exact, hrun.rewired⟩

/-- **Removing a pipe**, if it is still there. -/
theorem Leads.exact_removePipe (hl : Leads (Engine.removePipe h) net () net')
    (hL : net.layout.Exact) : net'.layout.Exact ∧ Rewired net net' ∧
      (∀ key k, k ∈ net'.layout.next key → k ∈ net.layout.next key ∧ k ≠ h) ∧
      (∀ key k, k ∈ net'.layout.prev key → k ∈ net.layout.prev key ∧ k ≠ h) ∧
      ∀ k w, net'.layout.Runs k w → net.layout.Runs k w := by
  cases hside : net.pipes.find? h with
  | none =>
    rw [Engine.removePipe, leads_pipe?_bind, hside] at hl
    obtain ⟨-, rfl⟩ := leads_pure.1 hl
    refine ⟨hL, .refl _, fun key k hk ↦ ⟨hk, ?_⟩, fun key k hk ↦ ⟨hk, ?_⟩, fun _ _ hw ↦ hw⟩
    · rintro rfl
      exact hL.live (.inl hk) hside
    · rintro rfl
      exact hL.live (.inr hk) hside
  | some side =>
    -- either side of a pipe may be named, and both go
    obtain ⟨h', other, n, m, hp, hs, ho⟩ : ∃ h' other n m, net.layout.Pair h h' side other ∧
        net.layout.core? side.node = some n ∧ net.layout.core? other.node = some m := by
      rcases hL.listed h side hside with hmem | hmem
      · obtain ⟨back, a, b, n, m, hj, -⟩ := hL.next _ h hmem
        obtain rfl := Option.some.inj (hj.front.symm.trans hside)
        exact ⟨back, b, n, m, hj.pair, hj.sender, hj.receiver⟩
      · obtain ⟨fwd, a, b, n, m, hj, -⟩ := hL.prev _ h hmem
        obtain rfl := Option.some.inj (hj.rear.symm.trans hside)
        exact ⟨fwd, a, m, n, hj.pair.symm, hj.receiver, hj.sender⟩
    obtain ⟨hlayout, hflows, hroster⟩ := hl.removePipe hL.toWellFormed hp hs ho
    rw [hlayout]
    refine ⟨hL.unplug hp, ⟨hlayout ▸ .unplug _ h h', hflows, hroster⟩, fun key k hk ↦ ?_,
      fun key k hk ↦ ?_, fun k w hw ↦ ((Layout.runs_unplug hL.toWellFormed hp).1 hw).1⟩
    · obtain ⟨hk, hne, -⟩ := Layout.mem_next_unplug.1 hk
      exact ⟨hk, hne⟩
    · obtain ⟨hk, hne, -⟩ := Layout.mem_prev_unplug.1 hk
      exact ⟨hk, hne⟩

/-- **Disconnecting a node**, after which it has no pipes. -/
theorem Leads.exact_disconnect (hl : Leads (Engine.disconnect key) net () net')
    (hL : net.layout.Exact) : net'.layout.Exact ∧ Rewired net net' ∧
      net'.layout.next key = [] ∧ net'.layout.prev key = [] := by
  rw [Engine.disconnect, leads_node_bind] at hl
  obtain ⟨n, hn, hl⟩ := hl
  have hnext : net.layout.next key = n.next := Network.tied_of_nodeAt? hn
  have hprev : net.layout.prev key = n.prev := Network.tied_of_nodeAt? hn
  have hrun := hl.forM (I := fun rest mid ↦ mid.layout.Exact ∧ Rewired net mid ∧
      ∀ k, k ∈ mid.layout.next key ∨ k ∈ mid.layout.prev key → k ∈ rest)
    ⟨hL, .refl _, fun k hk ↦ by rwa [hnext, hprev, ← List.mem_append] at hk⟩ (by
      rintro h rest mid mid' - ⟨hLmid, hrewired, hleft⟩ hstep
      obtain ⟨hL', hrewired', hnext', hprev', -⟩ := hstep.exact_removePipe hLmid
      refine ⟨hL', hrewired.trans hrewired', fun k hk ↦ ?_⟩
      obtain ⟨hk, hne⟩ : (k ∈ mid.layout.next key ∨ k ∈ mid.layout.prev key) ∧ k ≠ h := by
        rcases hk with hk | hk
        · exact ⟨.inl (hnext' key k hk).1, (hnext' key k hk).2⟩
        · exact ⟨.inr (hprev' key k hk).1, (hprev' key k hk).2⟩
      exact (List.mem_cons.1 (hleft k hk)).resolve_left hne)
  obtain ⟨hL', hrewired, hleft⟩ := hrun
  refine ⟨hL', hrewired, ?_, ?_⟩
  · exact List.eq_nil_iff_forall_not_mem.2 fun k hk ↦ List.not_mem_nil (hleft k (.inl hk))
  · exact List.eq_nil_iff_forall_not_mem.2 fun k hk ↦ List.not_mem_nil (hleft k (.inr hk))

end Engine

end HeaderFlow
