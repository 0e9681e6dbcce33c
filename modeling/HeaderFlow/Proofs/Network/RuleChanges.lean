import HeaderFlow.Proofs.Network.Roots

/-!
# Changes of links, rules and tables

**Each of these changes makes good in the end what its steps left open.** So a change that comes to
its end upholds whatever held before it. What is excepted from the invariant, `D`, `E` and `R`, is a
parameter: with all three empty this says that a network at rest is at rest again, and with others
the same is known of networks that are not.

* Links are joined or cut before the pipes are changed, so for the time in between the pipes of one
  link are missing (`Upheld.relink`). Links and tables are records beside the layout, and flows do
  not notice them (`Layout.shift_refile`).
* `Network.addRule_upheld`: the rule at that place goes, and the new one is entered, related,
  connected, given what it wins, and sent what arrives at it. A description that does not fit is
  refused before any of that (`Network.of_ruleNode`).
* `Network.removeTable_upheld` removes the rules of the table one by one. `Network.Retires` is what
  holds on the way: rules that are still to come are there, and no others are left in the table.

The lemmas on `expect` say what comes of looking up a node by its identifier; sources and probes are
looked up in the same way.
-/

namespace HeaderFlow

variable {L : Layout} {net net' : Network} {F : Arena Flow} {D : Set Debt} {X : Set Handle}
  {E : NodeKey → NodeKey → Link → Prop} {R : NodeKey → NodeKey → Prop} {key : NodeKey} {h : Handle}

/-! ### Links -/

/-- A pipe runs only between ports that are linked. -/
theorem Layout.WellFormed.link (hL : L.WellFormed) {fwd : Handle} {w : Wire} (hw : L.Runs fwd w) :
    ⟨w.outPort, w.inPort⟩ ∈ L.links := by
  obtain ⟨back, a, b, n, m, hj, rfl⟩ := hL.joins hw
  exact hj.link

/-- The layout with other records of where nodes are found and of which ports are linked. -/
def Layout.refile (L : Layout) (r : Registry) (t : Topology) : Layout :=
  { L with registry := r, topology := t }

/-- **Other records are well formed if they agree with the nodes, and if there is a link for each
pipe.** -/
theorem Layout.WellFormed.refile (hL : L.WellFormed) {r : Registry} {t : Topology}
    (hr : r.Agrees L.cores) (ht : t.Mirrored)
    (hlinks : ∀ fwd w, L.Runs fwd w → ⟨w.outPort, w.inPort⟩ ∈ t.links) :
    (L.refile r t).WellFormed := by
  have hjoins : ∀ {fwd back a b n m}, L.Joins fwd back a b n m →
      (L.refile r t).Joins fwd back a b n m := fun hj ↦
    { hj with link := hlinks _ _ hj.runs }
  refine ⟨hL.pipes, hL.nodup, hL.fresh, hL.proper, hr, ht,
    fun k fwd hfwd ↦ ?_, fun k back hback ↦ ?_, hL.once, hL.apart⟩
  · obtain ⟨back, a, b, n, m, hj, hnode⟩ := hL.next k fwd hfwd
    exact ⟨back, a, b, n, m, hjoins hj, hnode⟩
  · obtain ⟨fwd, a, b, n, m, hj, hnode⟩ := hL.prev k back hback
    exact ⟨fwd, a, b, n, m, hjoins hj, hnode⟩

/-- **Flows do not notice records**, only pipes. -/
theorem Layout.shift_refile (r : Registry) (t : Topology) : Shift L (L.refile r t) F D where
  keyMask := rfl
  core _ _ _ := rfl
  kept _ _ _ _ _ _ _ hrun := hrun
  runs _ _ hrun := .inl hrun
  less _ _ _ _ ht := .inl ht
  more _ _ _ _ ht := .inl ht

/-- The rules of the table have their keys in the list. -/
def Layout.LeftIn (L : Layout) (table : TableId) (keys : List NodeKey) : Prop :=
  ∀ n ∈ L.cores, ∀ index w, n.kind = .rule table index w → n.key ∈ keys

/-- Once a rule of the table is gone the others are left. -/
theorem Layout.LeftIn.step {L' : Layout} {table : TableId} {keys : List NodeKey}
    (hleft : L.LeftIn table (key :: keys)) (hcores : L'.cores = L.cores.filter (·.key ≠ key)) :
    L'.LeftIn table keys := by
  intro n hn index w hw
  obtain ⟨hn, hne⟩ := List.mem_filter.1 (hcores ▸ hn)
  exact (List.mem_cons.1 (hleft n hn index w hw)).resolve_left (of_decide_eq_true hne)

/-- With no keys left no rule is left. -/
theorem Layout.LeftIn.none {table : TableId} (hleft : L.LeftIn table []) :
    ∀ n ∈ L.cores, ∀ index w, n.kind ≠ .rule table index w := fun n hn index w hw ↦
  absurd (hleft n hn index w hw) List.not_mem_nil

/-- Other links uphold what the pipes need and what is not missing. -/
theorem Upheld.relink {E' : NodeKey → NodeKey → Link → Prop} {t : Topology}
    (hU : Upheld net D X E R) (ht : t.Mirrored)
    (hlinks : ∀ fwd w, net.layout.Runs fwd w → ⟨w.outPort, w.inPort⟩ ∈ t.links)
    (hE : ∀ s r l, l ∈ t.links → ¬ E' s r l → l ∈ net.links ∧ ¬ E s r l) :
    Upheld { net with topology := t } D X E' R where
  inv := hU.inv.shift (Layout.shift_refile net.registry t) (fun _ he ↦ he)
    (hU.inv.layout.refile hU.inv.layout.found ht hlinks) rfl rfl
  ordered := hU.ordered.congr rfl rfl rfl rfl
  wired n hn m hm q hq p hp hl hnot a x ha hax hnx := by
    obtain ⟨hl', hnot'⟩ := hE _ _ _ hl hnot
    exact hU.wired n hn m hm q hq p hp hl' hnot' a x ha hax hnx
  ranked := hU.ranked.congr rfl rfl rfl

/-- Other tables uphold what is there, as long as the rules are found in them. -/
theorem Upheld.retable {ts : List Table} (hU : Upheld net D X E R)
    (hts : Registry.Agrees ⟨net.directory, ts⟩ net.layout.cores) :
    Upheld { net with tables := ts } D X E R where
  inv := hU.inv.shift (Layout.shift_refile ⟨net.directory, ts⟩ net.topology) (fun _ he ↦ he)
    (hU.inv.layout.refile hts hU.inv.layout.mirrored fun _ _ hw ↦ hU.inv.layout.link hw) rfl rfl
  ordered := hU.ordered.congr rfl rfl rfl rfl
  wired := hU.wired
  ranked := hU.ranked.congr rfl rfl rfl

/-- A change of the answer keeps success. -/
theorem Outcome.map_of_ok {α β : Type} {o : Outcome α} {k : α → β} {a : α}
    (hok : o.result = .ok a) : (o.map k).result = .ok (k a) := by
  rw [Outcome.map, hok]
  rfl

/-- A change of the answer is no change of success. -/
theorem Outcome.of_map {α β : Type} {o : Outcome α} {k : α → β} {b : β}
    (hok : (o.map k).result = .ok b) : ∃ a, o.result = .ok a := by
  rw [Outcome.map] at hok
  cases ho : o.result with
  | error e => simp [ho, Except.map] at hok
  | ok a => exact ⟨a, rfl⟩

namespace Network

open Engine

/-- **A new link.** The link is recorded first, which makes its pipes missing, and connecting it
makes all of them. A link that is there already is not joined again, so the network is the one there
was. -/
theorem addLink_upheld {l : Link} {u : Unit} (hok : (net.addLink l).result = .ok u)
    (hU : Upheld net D ∅ E R) :
    Upheld (net.addLink l).network D ∅ E R ∧ SameSources net (net.addLink l).network := by
  rw [addLink] at hok ⊢
  split at hok
  · rw [if_pos ‹_›]
    exact ⟨hU, fun _ hr ↦ hr⟩
  · rw [if_neg ‹_›]
    have hl := leads_of_carryOut hok
    rw [leads_setEvent_bind, leads_update_bind] at hl
    have hlinked : ∀ s r l', l' ∈ (net.topology.join l).links → ¬ (E s r l' ∨ l' = l) →
        l' ∈ net.links ∧ ¬ E s r l' := by
      intro s r l' hl' hnot
      rw [not_or] at hnot
      exact ⟨(Topology.mem_links_join.1 hl').resolve_right hnot.2, hnot.1⟩
    have hmirrored := hU.inv.layout.mirrored.join
      (mt Topology.mem_links.1 (mt List.contains_iff_mem.2 ‹_›))
    obtain ⟨hU', hplan, hroots⟩ := upheld_connectLink (K := fun _ ↦ True) (E := E) hl
      ((hU.quiet (quiet_begin net _ _)).relink hmirrored
        (fun fwd w hw ↦ Topology.mem_links_join.2 (.inl (hU.inv.layout.link hw))) hlinked)
      (Topology.mem_links_join.2 (.inr rfl))
    exact ⟨hU', .of_eq hroots hplan.cores⟩

/-- **A link that goes.** Its pipes are disconnected while it is still recorded, and the record is
cut once there are none. -/
theorem removeLink_upheld {l : Link} {u : Unit} (hok : (net.removeLink l).result = .ok u)
    (hU : Upheld net D ∅ E R) :
    Upheld (net.removeLink l).network D ∅ E R ∧ SameSources net (net.removeLink l).network := by
  rw [removeLink] at hok ⊢
  split at hok
  · exact absurd hok (by simp [Outcome.refused])
  · rw [if_neg ‹_›]
    have hl := leads_of_carryOut hok
    rw [leads_setEvent_bind] at hl
    obtain ⟨⟨⟩, mid, hdisconnect, hlast⟩ := hl.bind
    obtain ⟨hU', hplan, hnone, hroots⟩ := upheld_disconnectLink
      (E := fun s r l' ↦ E s r l' ∨ l' = l) hdisconnect
      ((hU.quiet (quiet_begin net _ _)).mono (fun _ _ _ ↦ .inl) fun _ _ hR ↦ hR) fun _ _ ↦ .inr rfl
    rw [leads_update.1 hlast]
    have hmirrored := hU'.inv.layout.mirrored
    refine ⟨hU'.relink hmirrored.cut (fun fwd w hw ↦ ?_) fun s r l' hl' hnot ↦ ?_,
      .of_eq hroots hplan.cores⟩
    · have hne : (⟨w.outPort, w.inPort⟩ : Link) ≠ l := by
        rintro rfl
        exact hnone fwd w hw ⟨rfl, rfl⟩
      exact hmirrored.links_cut ▸ List.mem_filter.2 ⟨hU'.inv.layout.link hw, by simpa using hne⟩
    · obtain ⟨hl', hne⟩ := List.mem_filter.1 (hmirrored.links_cut ▸ hl')
      exact ⟨hl', fun he ↦ he.elim hnot (by simpa using hne)⟩

/-! ### Rules -/

/-- Only patterns as long as the headers of the network pass the check. -/
theorem of_checkLength {p : Pattern} {u : Unit} (hp : net.checkLength p = .ok u) :
    p.bytes = net.bytes := by
  rw [checkLength] at hp
  split at hp
  · assumption
  · exact absurd hp (by simp)

/-- Mask and value are given together or not at all, and both have the length of the headers. -/
theorem of_checkOverwrite {mask value : Option Pattern} {o : Option Overwrite}
    (ho : net.checkOverwrite mask value = .ok o) :
    ∀ w, o = some w → w.mask.bytes = net.bytes ∧ w.value.bytes = net.bytes := by
  rintro w rfl
  cases mask with
  | none => cases value <;> simp [checkOverwrite] at ho
  | some m =>
    cases value with
    | none => simp [checkOverwrite] at ho
    | some v =>
      simp only [checkOverwrite, bind, Except.bind] at ho
      split at ho
      · exact absurd ho (by simp)
      · rename_i hm
        split at ho
        · exact absurd ho (by simp)
        · rename_i hv
          obtain rfl := Option.some.inj (Except.ok.inj ho)
          exact ⟨of_checkLength hm, of_checkLength hv⟩

/-- A description of a rule that fits. -/
structure RuleFits (net : Network) (spec : RuleSpec) (t : Table) (w : Option Overwrite) : Prop where
  table : net.table? spec.table = some t
  ports : ∀ p ∈ spec.inPorts ++ spec.outPorts, p ∈ t.ports.toList
  accepts : spec.accepts.bytes = net.bytes
  overwrite : ∀ o, w = some o → o.mask.bytes = net.bytes ∧ o.value.bytes = net.bytes

/-- The node of a rule with this description. -/
def nodeOf (spec : RuleSpec) (table : Table) (w : Option Overwrite) (key : NodeKey) : Node :=
  let inPorts := if spec.inPorts.isEmpty then table.ports else .ofList spec.inPorts
  let outPorts := PortSet.ofList spec.outPorts
  .unconnected key (ruleId spec.table spec.index) (.rule ⟨spec.table, spec.index, w, [], []⟩)
    (some spec.accepts)
    (match w with
      | some w => (spec.accepts.replaceMasked w.mask w.value).pattern
      | none => spec.accepts)
    inPorts outPorts (table.ports.intersects inPorts) (table.ports.intersects outPorts)

/-- **Only a description that fits gives a node.** -/
theorem of_ruleNode {spec : RuleSpec} {node : NodeKey → Node} (hn : net.ruleNode spec = .ok node) :
    ∃ table w, net.RuleFits spec table w ∧ node = nodeOf spec table w := by
  simp only [ruleNode, bind, Except.bind] at hn
  split at hn
  · rename_i table htable
    split at hn
    · exact absurd hn (by simp)
    · rename_i hports
      split at hn
      · exact absurd hn (by simp)
      · rename_i hlength
        split at hn
        · exact absurd hn (by simp)
        · rename_i w hw
          refine ⟨table, w, ⟨htable, fun p hp ↦ ?_, of_checkLength hlength, of_checkOverwrite hw⟩,
            (Except.ok.inj hn).symm⟩
          have hfind : (spec.inPorts ++ spec.outPorts).find? (fun p ↦ !table.ports.contains p) =
              none := by
            cases hf : (spec.inPorts ++ spec.outPorts).find? fun p ↦ !table.ports.contains p with
            | none => rfl
            | some q => simp [hf] at hports
          have := List.find?_eq_none.1 hfind p hp
          exact PortSet.contains_iff.1 (by simpa using this)
  · exact absurd hn (by simp)

/-- The rule may be entered where no rule is at its place. -/
theorem RuleFits.admits {spec : RuleSpec} {t : Table} {w : Option Overwrite}
    (hfits : net.RuleFits spec t w) {mid : Network} (htables : mid.tableIds = net.tableIds)
    (hplace : ∀ m ∈ mid.layout.cores, ∀ w', m.kind ≠ .rule spec.table spec.index w')
    (key : NodeKey) : mid.registry.Admits mid.layout.cores (nodeOf spec t w key).core := by
  rintro table index w' ⟨⟩
  have hmem : spec.table ∈ net.tableIds := by
    have hid : t.id = spec.table := by simpa using List.find?_some hfits.table
    exact hid ▸ List.mem_map_of_mem (List.mem_of_find?_eq_some hfits.table)
  rw [← htables] at hmem
  exact ⟨List.mem_map.1 hmem, hplace⟩

/-- A rule of a description that fits is proper: its ports are ports of its table, and the pattern
of what it sends matches all that it makes of the headers it accepts. -/
theorem RuleFits.proper {spec : RuleSpec} {t : Table} {w : Option Overwrite}
    (hfits : net.RuleFits spec t w) (key : NodeKey) : (nodeOf spec t w key).core.Proper := by
  have hin : ∀ p ∈ (nodeOf spec t w key).inPorts.toList, p ∈ t.ports.toList := by
    intro p hp
    simp only [nodeOf, Node.unconnected] at hp
    split at hp
    · exact hp
    · exact hfits.ports p (List.mem_append_left _ (PortSet.mem_ofList.1 hp))
  have hout : ∀ q ∈ (nodeOf spec t w key).outPorts.toList, q ∈ t.ports.toList := fun q hq ↦
    hfits.ports q (List.mem_append_right _ (PortSet.mem_ofList.1 hq))
  refine ⟨fun p hp ↦ PortSet.intersects_iff.2 ⟨p, hin p hp, hp⟩,
    fun q hq ↦ PortSet.intersects_iff.2 ⟨q, hout q hq, hq⟩, spec.accepts, rfl, ?_⟩
  cases w with
  | none => exact fun x hx ↦ hx
  | some o =>
    obtain ⟨hmask, hvalue⟩ := hfits.overwrite o rfl
    exact fun hconcrete x y hx hxy ↦ Pattern.matches_replaceMasked hconcrete
      (hfits.accepts.trans hmask.symm) (hfits.accepts.trans hvalue.symm) hx hxy

/-- Where no rule is found there is none. -/
theorem free_of_ruleAt? {table : TableId} {index : UInt32} (hL : net.layout.WellFormed)
    (hnone : net.ruleAt? table index = none) :
    ∀ m ∈ net.layout.cores, ∀ w, m.kind ≠ .rule table index w := by
  intro m hm w hk
  obtain ⟨n, hn, rfl⟩ := List.mem_map.1 hm
  rw [(ruleAt?_eq_some hL).2 ⟨n, hn, rfl, rule?_of_kind hk⟩] at hnone
  exact absurd hnone (Option.some_ne_none _)

/-- The rule that is found at a place is there. -/
theorem kind_of_ruleAt? {table : TableId} {index : UInt32} {old : NodeKey}
    (hL : net.layout.WellFormed) (hold : net.ruleAt? table index = some old) :
    ∃ n ∈ net.nodes, n.key = old ∧ ∃ w, n.core.kind = .rule table index w := by
  obtain ⟨n, hn, hkey, hrule⟩ := (ruleAt?_eq_some hL).1 hold
  exact ⟨n, hn, hkey, Node.kind_core_eq_rule.2 hrule⟩

/-- Without the rule at a place, no rule is there. -/
theorem free_of_filter {table : TableId} {index : UInt32} {old : Core} {w : Option Overwrite}
    (ho : L.Ordered X) (hold : old ∈ L.cores) (hkind : old.kind = .rule table index w) :
    ∀ m ∈ L.cores.filter (·.key ≠ old.key), ∀ w', m.kind ≠ .rule table index w' := by
  intro m hm w' hk
  obtain ⟨hm, hne⟩ := List.mem_filter.1 hm
  exact of_decide_eq_true hne (ho.place m hm old hold table index w' w hk hkind ▸ rfl)

/-- The rule at a place is gone after it was removed. -/
theorem removeOld_upheld {table : TableId} {index : UInt32} {old : Option NodeKey} {mid : Network}
    (hl : Leads (old.toList.forM removeRuleNode) net () mid)
    (hold : net.ruleAt? table index = old) (hU : Upheld net D ∅ E R) :
    Upheld mid D ∅ E R ∧ (∀ m ∈ mid.layout.cores, ∀ w, m.kind ≠ .rule table index w) ∧
      mid.tableIds = net.tableIds ∧ SameSources net mid := by
  cases old with
  | none =>
    obtain ⟨-, rfl⟩ := leads_pure.1 hl
    exact ⟨hU, free_of_ruleAt? hU.inv.layout hold, rfl, fun _ hr ↦ hr⟩
  | some old =>
    obtain ⟨⟨⟩, net₁, hremove, hl⟩ := Leads.bind (k := fun _ ↦ List.forM [] _) hl
    obtain ⟨-, rfl⟩ := leads_pure.1 hl
    obtain ⟨n, hn, rfl, w, hkind⟩ := kind_of_ruleAt? hU.inv.layout hold
    have hcore : net.layout.core? n.key = some n.core := core?_core hU.inv.layout.nodup hn
    obtain ⟨hU', hcores, htables, hsources⟩ := upheld_removeRuleNode hremove hU fun m hm ↦ by
      obtain rfl := Option.some.inj (hcore.symm.trans hm)
      exact ⟨table, index, w, hkind⟩
    exact ⟨hU', hcores ▸ free_of_filter hU.ordered (List.mem_map_of_mem hn) hkind,
      htables, hsources⟩

/-- **A new rule**, in the steps in which it is added: the one at its place goes, the node is
entered, related, connected, given what it wins, and sent what arrives. `conceded` is carried past
the step that connects, where it is not paid yet. -/
theorem addRule_upheld {spec : RuleSpec} {id : NodeId} (hok : (net.addRule spec).result = .ok id)
    (hU : Upheld net D ∅ E R) :
    Upheld (net.addRule spec).network D ∅ E R ∧ SameSources net (net.addRule spec).network := by
  rw [addRule] at hok ⊢
  cases hnode : net.ruleNode spec with
  | error e => simp [hnode, Outcome.refused] at hok
  | ok node =>
    simp only [hnode] at hok ⊢
    obtain ⟨t, w, hfits, rfl⟩ := of_ruleNode hnode
    have hl := leads_of_carryOut hok
    rw [leads_setEvent_bind] at hl
    obtain ⟨⟨⟩, net₁, hold, hl⟩ := hl.bind
    obtain ⟨key, net₂, hadd, hl⟩ := hl.bind
    obtain ⟨⟨⟩, net₃, hrelate, hl⟩ := hl.bind
    obtain ⟨⟨⟩, net₄, hconnect, hl⟩ := hl.bind
    obtain ⟨⟨⟩, net₅, htake, hl⟩ := hl.bind
    obtain ⟨⟨⟩, net₆, hpull, hl⟩ := hl.bind
    obtain ⟨-, hlast⟩ := leads_pure.1 hl
    rw [hlast]
    obtain ⟨hU₁, hplace, htables, hsources₁⟩ :=
      removeOld_upheld hold rfl (hU.quiet (quiet_begin net _ _))
    obtain ⟨hU₂, hflows₂, hgrow, -, hn, hfree⟩ := upheld_addNode hadd hU₁ (fun _ ↦ rfl)
      (fun _ ↦ ⟨rfl, rfl, rfl, rfl, rfl⟩) hfits.proper (hfits.admits htables hplace _)
    obtain ⟨hU₃, hflows₃, hcores₃⟩ := upheld_relate hrelate hU₂ (Layout.core?_of_nodeAt? hn)
      ⟨_, _, _, rfl⟩ hfree
    obtain ⟨hU₄, hflows₄, hplan⟩ := upheld_connect hconnect hU₃ fun h f hf ↦
      hfree h f (hflows₃ ▸ hf)
    have hconceded : conceded net₃.layout net₃.flows key = conceded net₄.layout net₄.flows key := by
      rw [hflows₄, conceded_congr hplan.cores hplan.influences hplan.won]
    obtain ⟨hU₅, hframe₅⟩ := upheld_takeWon (D := D ∪ inbound net₄.layout key) htake
      { hU₄ with inv := hU₄.inv.mono (by
          rintro e ((he | he) | he)
          · exact .inl (.inl he)
          · exact .inr (hconceded ▸ he)
          · exact .inl (.inr he)) }
    obtain ⟨hI, hframe₆⟩ := inv_pull (D := D) hpull (hframe₅.layout ▸ hU₅.inv)
    refine ⟨hU₅.propagate hI hframe₆.layout, (quiet_begin net _ _).sameSources.trans
      (hsources₁.trans (.of_sameRoots (K := fun _ ↦ True) ?_ ?_))⟩
    · have hflows : net₄.flows = net₁.flows := hflows₄.trans (hflows₃.trans hflows₂)
      exact (SameRoots.of_eq hflows).trans (hframe₅.trans hframe₆).sameRoots
    · intro m hm hkind
      rw [(hframe₅.trans hframe₆).layout, hplan.cores, hcores₃, hgrow] at hm
      refine ⟨(List.mem_append.1 hm).resolve_right fun hlast ↦ ?_, trivial⟩
      rw [List.mem_singleton.1 hlast] at hkind
      exact absurd hkind (by simp [Network.nodeOf, Node.unconnected, Node.core, Role.kind])

/-- What is looked up by its identifier is what has it. -/
theorem expect_eq_ok {id : NodeId} {type : NodeType} {expected : ExpectedRole} {n : Node} :
    net.expect id type expected = .ok n ↔ net.node? id = some n ∧ n.type = type := by
  rw [expect]
  constructor
  · intro hok
    cases hm : net.require id with
    | error e => simp [hm, bind, Except.bind] at hok
    | ok m =>
      simp only [hm, bind, Except.bind] at hok
      split at hok
      · obtain rfl := Except.ok.inj hok
        exact ⟨require_eq_ok.1 hm, ‹_›⟩
      · exact absurd hok nofun
  · rintro ⟨hn, htype⟩
    rw [require_eq_ok.2 hn]
    exact if_pos htype

/-- **What is answered if there is no such node**, or a key is followed that leads nowhere. -/
theorem expect_eq_error {id : NodeId} {type : NodeType} {expected : ExpectedRole} {e : NetworkError}
    (he : net.expect id type expected = .error e) :
    (∃ key, e = .fault (.missingNode key)) ∨ e = .nodeNotFound id ∨
    e = .wrongNodeType id expected := by
  have hrequire : ∀ e, net.require id = .error e → (∃ key, e = .fault (.missingNode key)) ∨
      e = .nodeNotFound id := by
    intro e he
    rw [require] at he
    split at he
    · rename_i key _
      rw [node] at he
      split at he
      · cases he
      · exact .inl ⟨key, (Except.error.inj he).symm⟩
    · exact .inr (Except.error.inj he).symm
  rw [expect] at he
  cases hn : net.require id with
  | error e' =>
    rw [hn] at he
    obtain rfl : e' = e := Except.error.inj he
    exact (hrequire e' hn).imp_right .inl
  | ok n =>
    simp only [hn, bind, Except.bind] at he
    split at he
    · cases he
    · exact .inr (.inr (Except.error.inj he).symm)

/-- A node that is expected is there, and of the type that was asked for. -/
theorem of_expect {id : NodeId} {type : NodeType} {expected : ExpectedRole} {n : Node}
    (hn : net.expect id type expected = .ok n) : n ∈ net.nodes ∧ n.type = type :=
  (expect_eq_ok.1 hn).imp_left mem_of_node?

/-- **A rule that goes** by its identifier. -/
theorem removeRule_upheld {id : NodeId} {u : Unit} (hok : (net.removeRule id).result = .ok u)
    (hU : Upheld net D ∅ E R) :
    Upheld (net.removeRule id).network D ∅ E R ∧ SameSources net (net.removeRule id).network := by
  rw [removeRule] at hok ⊢
  cases hn : net.expect id .rule .rule with
  | error e => simp [hn, Outcome.refused] at hok
  | ok n =>
    simp only [hn] at hok ⊢
    obtain ⟨hmem, htype⟩ := of_expect hn
    have hl := leads_of_carryOut hok
    rw [leads_setEvent_bind] at hl
    refine (upheld_removeRuleNode hl (hU.quiet (quiet_begin net _ _)) fun m hm ↦ ?_).imp_right
      fun hr ↦ (quiet_begin net _ _).sameSources.trans hr.2.2
    obtain rfl := Option.some.inj ((core?_core hU.inv.layout.nodup hmem).symm.trans hm)
    cases hrole : n.role with
    | rule r => exact ⟨r.table, r.index, r.overwrite, by simp [Node.core, Role.kind, hrole]⟩
    | source => simp [Node.type, hrole] at htype
    | probe p => simp [Node.type, hrole] at htype

/-- A table is put in its place in the order, and no table is lost. -/
theorem perm_insertTable (t : Table) (ts : List Table) : (insertTable t ts).Perm (t :: ts) := by
  induction ts with
  | nil => exact .refl _
  | cons u ts ih =>
    rw [insertTable]
    split
    · exact .refl _
    · exact (ih.cons _).trans (.swap _ _ _)

/-- **A new table** has no rules, so it agrees with the nodes that are there. An identifier in use
is refused. -/
theorem addTable_upheld {id : TableId} {ports : List Port} {u : Unit}
    (hok : (net.addTable id ports).result = .ok u) (hU : Upheld net D ∅ E R) :
    Upheld (net.addTable id ports).network D ∅ E R ∧
      SameSources net (net.addTable id ports).network := by
  rw [addTable] at hok ⊢
  split at hok
  · exact absurd hok (by simp [Outcome.refused])
  · rw [if_neg ‹_›]
    split at hok
    · exact absurd hok (by simp [Outcome.refused])
    · rw [if_neg ‹_›]
      rename_i hnew
      have hU' := hU.retable (hU.inv.layout.found.addTable (t := ⟨id, .ofList ports, ∅⟩) rfl
        (fun u hu he ↦ hnew (List.find?_isSome.2 ⟨u, hu, beq_iff_eq.2 he⟩)) fun u ↦
          (perm_insertTable _ net.tables).mem_iff.trans List.mem_cons)
      have hq := quiet_begin { net with tables := insertTable ⟨id, .ofList ports, ∅⟩ net.tables }
        (some { kind := .addTable, first := id.toNat }) net.budget
      exact ⟨hU'.quiet hq, fun _ hr ↦ ⟨hr.root, hr.source, hr.unique⟩⟩

/-- The ranking of a table has all its rules. -/
theorem leftIn_ranking (hL : net.layout.WellFormed) (table : TableId) :
    net.layout.LeftIn table ((net.ranking table).map Prod.snd) := by
  intro n hn index w hw
  obtain ⟨m, hm, rfl⟩ := List.mem_map.1 hn
  exact List.mem_map_of_mem (f := Prod.snd)
    ((mem_ranking hL.found).2 ⟨m, hm, rfl, rule?_of_kind hw⟩)

/-- Rules are removed from the network, and of those that are left the ones with the keys are still
to come. -/
structure Retires (net : Network) (D : Set Debt) (E : NodeKey → NodeKey → Link → Prop)
    (R : NodeKey → NodeKey → Prop) (table : TableId) (keys : List NodeKey) (mid : Network) :
    Prop where
  upheld : Upheld mid D ∅ E R
  sources : SameSources net mid
  rules : ∀ key ∈ keys, ∀ n ∈ mid.layout.cores, n.key = key → n.IsRule
  left : mid.layout.LeftIn table keys

/-- **One rule of the table goes.** The others are still there, and those of the table are still to
come. -/
theorem Retires.step {table : TableId} {keys : List NodeKey} {mid mid' : Network}
    (hR : Retires net D E R table (key :: keys) mid) (hl : Leads (removeRuleNode key) mid () mid') :
    Retires net D E R table keys mid' := by
  obtain ⟨hU, hcores, -, hsources⟩ := upheld_removeRuleNode hl hR.upheld fun n hn ↦
    hR.rules key List.mem_cons_self n (Layout.mem_of_core? hn) (Layout.key_of_core? hn)
  refine ⟨hU, hR.sources.trans hsources, fun k hk n hn ↦ ?_, hR.left.step hcores⟩
  exact hR.rules k (List.mem_cons_of_mem _ hk) n (List.mem_of_mem_filter (hcores ▸ hn))

/-- **A table that goes** takes its rules with it, one by one in the order of the ranking, and is
struck from the records when none is left. -/
theorem removeTable_upheld {id : TableId} {u : Unit} (hok : (net.removeTable id).result = .ok u)
    (hU : Upheld net D ∅ E R) :
    Upheld (net.removeTable id).network D ∅ E R ∧ SameSources net (net.removeTable id).network := by
  rw [removeTable] at hok ⊢
  split at hok
  · exact absurd hok (by simp [Outcome.refused])
  · rw [if_neg ‹_›]
    have hl := leads_of_carryOut hok
    rw [leads_setEvent_bind] at hl
    obtain ⟨⟨⟩, mid, hremove, hlast⟩ := hl.bind
    rw [leads_update.1 hlast]
    have hrun : Retires net D E R id [] mid := by
      refine hremove.forM (I := Retires net D E R id) ⟨hU.quiet (quiet_begin net _ _),
        (quiet_begin net _ _).sameSources, fun key hkey n hn hnk ↦ ?_,
        leftIn_ranking hU.inv.layout id⟩ fun _ _ _ _ _ hR ↦ hR.step
      obtain ⟨⟨index, key⟩, hmem, rfl⟩ := List.mem_map.1 hkey
      obtain ⟨m, hm, rfl, r, hr, -⟩ := (mem_ranking hU.inv.layout.found).1 hmem
      obtain ⟨n', hn', rfl⟩ := List.mem_map.1 hn
      obtain rfl := eq_of_key_eq (map_key_cores net ▸ hU.inv.layout.nodup) hn' hm hnk
      exact ⟨_, _, _, kind_of_rule? hr⟩
    exact ⟨hrun.upheld.retable (hrun.upheld.inv.layout.found.dropTable hrun.left.none), fun _ hr ↦
      have hmid := hrun.sources _ hr
      ⟨hmid.root, hmid.source, hmid.unique⟩⟩

end Network

end HeaderFlow
