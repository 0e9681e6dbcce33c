import HeaderFlow.Proofs.Network.Visits

/-!
# Taking in a flow

A flow that has just come out of a pipe is listed at its node and with the flow it came from
(`Enlisted`). At a rule it is then decided whether the flow is looped. **If the search finds
nothing, the place of the rule is not met anywhere above** (`not_meets_of_loopOf`): up to the top
there are rules only, except for a source at the very top, so nothing ends the search early.

From this follows `Welcomes` for every room, by recursion on the room.

## Why visits are bounded

A visit may be nested only as deep as there are places that the path of the flow has not met. When a
flow does not loop at a rule, the place of that rule is met from now on and was not before, so the
number of places that are left goes down by one with every visit inside (`Enlisted.onward`). A flow
that does loop is marked, and sends nothing. Hence `arriveWithin_welcomes`: where the room is at
least what is left, arriving never runs out of it.
-/

namespace HeaderFlow

open Engine

variable {net net' : Network} {L : Layout} {s : Settings} {room : Nat} {X : Set Handle}
  {h c : Handle} {f g : Flow} {d e : Nat} {key : NodeKey} {place : UInt64} {n : Node} {r : Rule}
  {arrive : NodeKey → Handle → Engine Unit}

/-! ### Listing a flow -/

/-- How far a flow is from its root does not change with what it sends. -/
theorem line_modify {F : Arena Flow} {k : Flow → Flow} {p : Handle} (hk : ∀ f, (k f).way = f.way)
    (hd : Line F h d) : Line (F.modify p k) h d := by
  have hnew : ∀ {g f}, F.find? g = some f → ∃ f', (F.modify p k).find? g = some f' ∧
      f'.parent = f.parent := fun {g f} hf ↦ by
    rcases (Stable.modify (h := p) hk).live g f hf with hp | ⟨f', hf', hway⟩
    · exact absurd ((Arena.past_modify.1 hp).find?_eq_none.symm.trans hf) (by simp)
    · exact ⟨f', hf', Flow.parent_eq hway⟩
  induction hd with
  | top hf hp =>
    obtain ⟨f', hf', hparent⟩ := hnew hf
    exact .top hf' fun q hq ↦ Arena.past_modify.2 (hp q (hparent ▸ hq))
  | step hf hp _ ih =>
    obtain ⟨f', hf', hparent⟩ := hnew hf
    exact .step hf' (hparent.trans hp) ih

/-- Which places are met above does not change with what a flow sends. -/
theorem not_meets_modify {F : Arena Flow} {k : Flow → Flow} {p : Handle} {o : Option Handle}
    (hk : ∀ f, (k f).way = f.way) (hm : ¬ Meets L F place o) :
    ¬ Meets L (F.modify p k) place o := by
  refine fun hm' ↦ hm (hm'.transport (P := fun _ ↦ True) (fun g f' _ hf' ↦ ⟨?_, fun _ _ ↦ trivial⟩)
    fun _ _ ↦ trivial)
  rw [Arena.find?_modify] at hf'
  split at hf'
  · rename_i hg
    obtain ⟨f, hf, rfl⟩ := Option.map_eq_some_iff.1 hf'
    exact ⟨f, hg ▸ hf, (hk f).symm⟩
  · exact ⟨f', hf', rfl⟩

/-- The new flow `c` has been listed, and it is not known yet whether it is looped. -/
structure Enlisted (net net' : Network) (c : Handle) (d : Nat) (g : Flow) : Prop where
  kin : Kin net' {c}
  keeps : ∀ e, Keeps e net net'
  unlisted : ∀ f, ¬ net.Holds c f
  holds : net'.Holds c g
  line : Line net'.flows c d
  childless : ∀ h f, net'.Holds h f → f.parent ≠ some c

/-- One more flow is listed at a node. -/
theorem roster_enlist (hn : net.nodeAt? key = some n) (key' : NodeKey) :
    (withNode net key fun n ↦ { n with flows := n.flows ++ [c] }).roster key' =
      if key' = key then net.roster key' ++ [c] else net.roster key' := by
  rw [Network.roster, tied_withNode (by exact fun _ _ hkey ↦ hkey)]
  split
  · rename_i hkey
    rw [hkey, Network.roster, Network.tied_of_nodeAt? hn, hn]
    rfl
  · rfl

/-- The flow `c` is listed at its node and with the flow `p` it came from. -/
structure Registers (net net' : Network) (p c : Handle) (g : Flow) : Prop where
  layout : net'.layout = net.layout
  flows : net'.flows = net.flows.modify p fun f ↦ { f with children := f.children ++ [c] }
  roster : ∀ key, net'.roster key = if key = g.node then net.roster key ++ [c] else net.roster key

/-- **What registering a flow comes to.** -/
theorem Engine.Leads.register (hl : Leads (Engine.register g.node c) net () net') {p : Handle}
    (hp : g.parent = some p) (hg : net.flows.find? c = some g) {n : Node}
    (hn : net.nodeAt? g.node = some n) : Registers net net' p c g := by
  rw [Engine.register, leads_updateNode_bind, leads_flow_bind] at hl
  obtain ⟨g', hg', hl⟩ := hl
  obtain rfl := Option.some.inj (hg.symm.trans hg')
  simp only [hp, leads_updateFlow] at hl
  subst hl
  exact ⟨layout_withNode fun _ _ _ ↦ ⟨rfl, rfl, rfl, rfl, rfl⟩, rfl, roster_enlist hn⟩

namespace Registers

variable {p : Handle} {k k' : Flow}

/-- One more flow is listed, at its node. -/
theorem mem_roster (hr : Registers net net' p c g) :
    h ∈ net'.roster key ↔ h ∈ net.roster key ∨ h = c ∧ key = g.node := by
  rw [hr.roster]
  split <;> simp_all

/-- The flow that it came from has one child more, and nothing else changes in the tree. -/
theorem replaces (hr : Registers net net' p c g) (hf : net.flows.find? p = some f) :
    Replaces net.flows net'.flows p f { f with children := f.children ++ [c] } :=
  hr.flows ▸ Replaces.modify (k := fun f ↦ { f with children := f.children ++ [c] }) hf rfl

/-- What was listed is listed. -/
theorem new (hr : Registers net net' p c g) (hf : net.flows.find? p = some f) (hk : net.Holds h k) :
    ∃ k', net'.Holds h k' ∧ k'.way = k.way ∧ k'.looped = k.looped := by
  obtain ⟨k', hk', hway, hsame⟩ := (hr.replaces hf).new hk.1
  refine ⟨k', ⟨hk', hr.mem_roster.2 (.inl (Flow.node_eq hway ▸ hk.2))⟩, hway, ?_⟩
  by_cases hh : h = p
  · subst hh
    obtain rfl := Option.some.inj (hk.1.symm.trans hf)
    rw [Option.some.inj (hk'.symm.trans (hr.replaces hf).after)]
  · rw [hsame hh]

/-- What is listed was listed, or it is the new flow. -/
theorem old (hr : Registers net net' p c g) (hf : net.flows.find? p = some f)
    (hg : net'.flows.find? c = some g) (hk' : net'.Holds h k') :
    h = c ∧ k' = g ∨ ∃ k, net.Holds h k ∧ k'.way = k.way ∧ k'.looped = k.looped ∧
      ∀ x ∈ k'.children, x ∈ k.children ∨ h = p ∧ x = c := by
  rcases hr.mem_roster.1 hk'.2 with hlisted | ⟨rfl, -⟩
  · obtain ⟨k, hk, hway, hsame⟩ := (hr.replaces hf).old hk'.1
    refine .inr ⟨k, ⟨hk, Flow.node_eq hway ▸ hlisted⟩, hway, ?_⟩
    by_cases hh : h = p
    · subst hh
      obtain rfl := Option.some.inj (hk.symm.trans hf)
      rw [Option.some.inj (hk'.1.symm.trans (hr.replaces hf).after)]
      exact ⟨rfl, fun x hx ↦ (List.mem_append.1 hx).imp_right fun hx ↦ ⟨rfl, by simpa using hx⟩⟩
    · rw [hsame hh]
      exact ⟨rfl, fun x hx ↦ .inl hx⟩
  · exact .inl ⟨rfl, Option.some.inj (hk'.1.symm.trans hg)⟩

/-- What the flows owe their pipes they owe as before; nothing is owed by the new flow yet. -/
theorem keeps (hr : Registers net net' p c g) (hf : net.flows.find? p = some f)
    (hentered : net.layout.prev g.node ≠ []) (e : Nat) : Keeps e net net' := by
  refine ⟨hr.layout, fun h hp ↦ hr.flows ▸ Arena.past_modify.2 hp, fun h k hk ↦ .inr (hr.new hf hk),
    fun h k _ hk _ _ ↦ (hr.new hf hk).elim fun k' hk' ↦ hk'.1.not_past, fun key hnil h hh ↦ ?_⟩
  refine (hr.mem_roster.1 hh).resolve_right ?_
  rintro ⟨-, rfl⟩
  exact hentered hnil

end Registers

/-- **Listing a new flow.** -/
theorem enlisted_register (hl : Leads (register g.node c) net () net') (hK : Kin net ∅)
    (hc : Newborn net c d g) : Enlisted net net' c d g := by
  obtain ⟨p, f, e, hp, ho, rfl⟩ := hc.parent
  obtain ⟨n, hn, hkind⟩ := hc.place
  obtain ⟨n', hn', -⟩ := Option.map_eq_some_iff.1 ((Layout.core?_layout net g.node).symm.trans hn)
  have hr := hl.register hp hc.live hn'
  have hf := ho.holds.1
  have hunlisted : ∀ k, ¬ net.Holds c k := fun k hk ↦ hc.unlisted _ hk.2
  have hcp : c ≠ p := fun he ↦ hunlisted f (he ▸ ho.holds)
  have hself : net'.Holds c g :=
    ⟨((hr.replaces hf).other c hcp).trans hc.live, hr.mem_roster.2 (.inr ⟨rfl, rfl⟩)⟩
  have hkeeps := hr.keeps hf hc.entered
  have hway : ∀ k : Flow, ({ k with children := k.children ++ [c] } : Flow).way = k.way :=
    fun _ ↦ rfl
  have hline : ∀ {h e}, Line net.flows h e → Line net'.flows h e := fun hd ↦
    hr.flows ▸ line_modify hway hd
  have hlast : Line net'.flows c (e + 1) := .step hself.1 hp (hline ho.line)
  -- in every part the flow at hand is the new one, or it was listed before
  refine ⟨⟨hr.flows ▸ Arena.valid_modify hK.valid, fun key h hh ↦ ?_, fun h k' q hk' hq ↦ ?_,
    fun h k' x hk' hx ↦ ?_, fun h k' m hk' hm hm' ↦ ?_, fun h k' place hk' hX hloop hplace ↦ ?_,
    fun h k' hk' ↦ ?_⟩, hkeeps, hunlisted, hself, hlast, fun h k' hk' hq ↦ ?_⟩
  · rcases hr.mem_roster.1 hh with hh | ⟨rfl, rfl⟩
    · obtain ⟨k, hk, rfl⟩ := hK.holds hh
      obtain ⟨k', hk', hway, -⟩ := hr.new hf hk
      exact ⟨k', hk'.1, Flow.node_eq hway⟩
    · exact ⟨g, hself.1, rfl⟩
  · rw [hr.layout]
    rcases hr.old hf hself.1 hk' with ⟨rfl, rfl⟩ | ⟨k, hk, hway, -⟩
    · obtain rfl := Option.some.inj (hp.symm.trans hq)
      obtain ⟨f', hf', hway, hloop⟩ := hr.new hf ho.holds
      exact .inr ⟨f', hf', hloop.trans ho.looped, Flow.node_eq hway ▸ ho.forwards⟩
    · refine (hkeeps 0).traces (hK.parent h k q hk ((Flow.parent_eq hway).symm.trans hq)) ?_
      exact fun l l' hway hloop ⟨hl, hforwards⟩ ↦ ⟨hloop.trans hl, Flow.node_eq hway ▸ hforwards⟩
  · rcases hr.old hf hself.1 hk' with ⟨rfl, rfl⟩ | ⟨k, hk, -, -, hchildren⟩
    · exact absurd (hc.children ▸ hx) List.not_mem_nil
    · rcases hchildren x hx with hx | ⟨rfl, rfl⟩
      · exact (hkeeps 0).traces (hK.children h k x hk hx) fun _ _ hway _ hl ↦
          (Flow.parent_eq hway).trans hl
      · exact .inr ⟨g, hself, hp⟩
  · rw [hr.layout] at hm
    rcases hr.old hf hself.1 hk' with ⟨rfl, rfl⟩ | ⟨k, hk, hway, -⟩
    · obtain rfl := Option.some.inj (hn.symm.trans hm)
      exact absurd hm' hkind
    · exact (Flow.parent_eq hway).trans (hK.source h k m hk (Flow.node_eq hway ▸ hm) hm')
  · rcases hr.old hf hself.1 hk' with ⟨rfl, rfl⟩ | ⟨k, hk, hway', hloop', -⟩
    · exact absurd rfl hX
    · rw [hr.layout, Flow.node_eq hway'] at hplace
      rw [hr.layout, hr.flows, Flow.parent_eq hway']
      exact not_meets_modify hway <|
        hK.apart h k place hk (Set.notMem_empty h) (hloop'.symm.trans hloop) hplace
  · rcases hr.old hf hself.1 hk' with ⟨rfl, rfl⟩ | ⟨k, hk, -⟩
    · exact ⟨e + 1, hlast⟩
    · exact (hK.line h k hk).imp fun _ ↦ hline
  · rcases hr.old hf hself.1 hk' with ⟨rfl, rfl⟩ | ⟨k, hk, hway, -⟩
    · exact hcp (Option.some.inj (hq.symm.trans hp))
    · rcases hK.parent h k c hk ((Flow.parent_eq hway).symm.trans hq) with hpast | ⟨l, hl, -⟩
      · exact absurd (hpast.find?_eq_none.symm.trans hc.live) (by simp)
      · exact hunlisted l hl

/-! ### Loops -/

/-- A flow that is marked as looped. -/
theorem kin_markLooped (he : Enlisted net net' c d g) :
    Kin (withFlow net' c fun f ↦ { f with looped := true }) ∅ := by
  have hK := he.kin
  have hway : ∀ f : Flow, ({ f with looped := true } : Flow).way = f.way := fun _ ↦ rfl
  have hr := Replaces.modify (k := fun f ↦ { f with looped := true }) he.holds.1 rfl
  have hnew : ∀ {h k}, net'.Holds h k → ∃ k',
      (withFlow net' c fun f ↦ { f with looped := true }).Holds h k' ∧ k'.way = k.way ∧
        (h ≠ c → k' = k) := fun {h k} hk ↦ by
    obtain ⟨k', hk', hway, hsame⟩ := hr.new hk.1
    exact ⟨k', ⟨hk', Flow.node_eq hway ▸ hk.2⟩, hway, hsame⟩
  have hold : ∀ {h k'}, (withFlow net' c fun f ↦ { f with looped := true }).Holds h k' →
      ∃ k, net'.Holds h k ∧ k'.way = k.way ∧ k'.children = k.children ∧ (h ≠ c → k' = k) ∧
        (h = c → k'.looped = true) := fun {h k'} hk' ↦ by
    obtain ⟨k, hk, hway, hsame⟩ := hr.old hk'.1
    refine ⟨k, ⟨hk, Flow.node_eq hway ▸ hk'.2⟩, hway, ?_, hsame, ?_⟩
    · by_cases hh : h = c
      · subst hh
        rw [Option.some.inj (hk'.1.symm.trans hr.after), Option.some.inj (hk.symm.trans hr.before)]
      · rw [hsame hh]
    · rintro rfl
      rw [Option.some.inj (hk'.1.symm.trans hr.after)]
  refine ⟨Arena.valid_modify hK.valid, fun key h hh ↦ ?_, fun h k' p hk' hp ↦ ?_,
    fun h k' x hk' hx ↦ ?_, fun h k' n hk' hn hkind ↦ ?_, fun h k' place hk' _ hloop hplace ↦ ?_,
    fun h k' hk' ↦ ?_⟩
  · obtain ⟨k, hk, rfl⟩ := hK.holds hh
    obtain ⟨k', hk', hway, -⟩ := hnew hk
    exact ⟨k', hk'.1, Flow.node_eq hway⟩
  · obtain ⟨k, hk, hway, -⟩ := hold hk'
    have hp := (Flow.parent_eq hway).symm.trans hp
    refine Or.imp Arena.past_modify.2 ?_ (hK.parent h k p hk hp)
    rintro ⟨l, hl, hgoes⟩
    obtain ⟨l', hl', -, hsame⟩ := hnew hl
    -- nothing has come from `c` yet, so what is above a flow is as it was
    obtain rfl := hsame fun hpc ↦ he.childless h k hk (hpc ▸ hp)
    exact ⟨l', hl', hgoes⟩
  · obtain ⟨k, hk, -, hchildren, -⟩ := hold hk'
    refine Or.imp Arena.past_modify.2 ?_ (hK.children h k x hk (hchildren ▸ hx))
    rintro ⟨l, hl, hp⟩
    obtain ⟨l', hl', hway, -⟩ := hnew hl
    exact ⟨l', hl', (Flow.parent_eq hway).trans hp⟩
  · obtain ⟨k, hk, hway, -⟩ := hold hk'
    exact (Flow.parent_eq hway).trans (hK.source h k n hk (Flow.node_eq hway ▸ hn) hkind)
  · obtain ⟨k, hk, -, -, hsame, hlooped⟩ := hold hk'
    have hne : h ≠ c := fun hh ↦ absurd (hloop.symm.trans (hlooped hh)) (by simp)
    obtain rfl := hsame hne
    exact not_meets_modify hway (hK.apart h k' place hk hne hloop hplace)
  · obtain ⟨k, hk, -⟩ := hold hk'
    exact (hK.line h k hk).imp fun _ ↦ line_modify hway

/-- What was kept by listing a flow is kept by marking it, since it was not listed before. -/
theorem Enlisted.keeps_markLooped (he : Enlisted net net' c d g) :
    Keeps e net (withFlow net' c fun f ↦ { f with looped := true }) := by
  have hk := he.keeps e
  refine ⟨hk.layout, fun h hp ↦ Arena.past_modify.2 (hk.past h hp), fun h f hf ↦ ?_,
    fun h f i hf hd hlt hp ↦ hk.spares h f i hf hd hlt (Arena.past_modify.1 hp), hk.closed⟩
  refine Or.imp Arena.past_modify.2 ?_ (hk.kept h f hf)
  rintro ⟨f', hf', hway⟩
  have hne : h ≠ c := fun hh ↦ he.unlisted f (hh ▸ hf)
  exact ⟨f', ⟨(Arena.find?_modify_of_ne hne).trans hf'.1, hf'.2⟩, hway⟩

/-- If the search above finds nothing, there is nothing. -/
theorem not_meets_of_revisited {fuel : Nat} {start : Option Handle} (hK : Kin net X)
    (hv : net.revisited place (Network.ancestry net.flows fuel start) = .ok none)
    (hstart : ∀ h, start = some h → net.flows.Past h ∨ ∃ d f, Onward net h d f ∧ d < fuel) :
    ¬ Meets net.layout net.flows place start := by
  induction fuel generalizing start with
  | zero =>
    intro hm
    cases start with
    | none => cases hm
    | some h =>
      have hpast := (hstart h rfl).resolve_right fun ⟨d, f, _, hd⟩ ↦ absurd hd (Nat.not_lt_zero d)
      cases hm with
      | here hf => exact absurd (hpast.find?_eq_none.symm.trans hf) (by simp)
      | above hf => exact absurd (hpast.find?_eq_none.symm.trans hf) (by simp)
  | succ fuel ih =>
    intro hm
    obtain ⟨h, f, rfl, hf, hcases⟩ : ∃ h f, start = some h ∧ net.flows.find? h = some f ∧
        (net.layout.loopKey? f.node = some place ∨ Meets net.layout net.flows place f.parent) := by
      cases hm with
      | here hf hplace => exact ⟨_, _, rfl, hf, .inl hplace⟩
      | above hf hm => exact ⟨_, _, rfl, hf, .inr hm⟩
    obtain hpast | ⟨d, f', ho, hd⟩ := hstart h rfl
    · exact absurd (hpast.find?_eq_none.symm.trans hf) (by simp)
    obtain rfl := Option.some.inj (hf.symm.trans ho.holds.1)
    simp only [Network.ancestry, hf, Network.revisited, Checked.bind_eq_ok] at hv
    obtain ⟨n, hn, hv⟩ := hv
    have hn' : net.nodeAt? f.node = some n := by
      rw [Network.node] at hn
      cases hat : net.nodeAt? f.node <;> simp_all
    have hcore := Layout.core?_of_nodeAt? hn'
    -- the search goes on past a rule, and ends at a source, above which there is nothing
    cases hr : n.role with
    | rule r =>
      simp only [Node.rule?, hr] at hv
      split at hv
      · exact absurd hv (by simp [pure, Except.pure])
      · rename_i hne
        refine hcases.elim (fun hplace ↦ hne ?_) (ih hv fun p hp ↦ ?_)
        · rw [Layout.loopKey?, hcore] at hplace
          simp only [Node.core, Role.kind, hr] at hplace
          exact beq_iff_eq.2 (Option.some.inj hplace)
        · rcases hK.parent h f p ho.holds hp with hpast | ⟨l, hl, hloop, hforwards⟩
          · exact .inl hpast
          · obtain ⟨i, rfl, hi⟩ := ho.line.above hf hp hl.not_past
            exact .inr ⟨i, l, ⟨hl, hloop, hforwards, hi⟩, by omega⟩
    | source =>
      rcases hcases with hplace | hm
      · simp [Layout.loopKey?, hcore, Node.core, Role.kind, hr] at hplace
      · rw [hK.source h f n.core ho.holds hcore (by simp [Node.core, Role.kind, hr])] at hm
        cases hm
    | probe q => exact ho.forwards n.core hcore (by simp [Node.core, Role.kind, hr])

/-- **A flow that is not found to loop does not meet its place above.** -/
theorem not_meets_of_loopOf (hK : Kin net X) (hg : net.Holds c g) (hn : net.nodeAt? g.node = some n)
    (hloop : net.loopOf c = .ok none) (hplace : net.layout.loopKey? g.node = some place) :
    ¬ Meets net.layout net.flows place g.parent := by
  rw [Network.loopOf, get_eq_ok.2 hg.1, Checked.ok_bind, Network.node, hn, Checked.ok_bind] at hloop
  have hkey : n.id &&& net.settings.loopDetection.keyMask = place := by
    rw [Layout.loopKey?, Layout.core?_of_nodeAt? hn] at hplace
    cases hr : n.role <;> simp [Node.core, Role.kind, hr] at hplace
    exact hplace
  refine not_meets_of_revisited hK (hkey ▸ hloop) fun p hp ↦ ?_
  rcases hK.parent c g p hg hp with hpast | ⟨l, hl, hloop, hforwards⟩
  · exact .inl hpast
  · obtain ⟨e, he⟩ := hK.line p l hl
    exact .inr ⟨e, l, ⟨hl, hloop, hforwards, he⟩, he.lt_size⟩

/-! ### Taking in -/

/-- A flow that has been listed and is known not to loop goes on. -/
theorem Enlisted.onward (he : Enlisted net net' c d g) (hg : g.looped = false)
    (hn : net.nodeAt? g.node = some n) (hr : n.role = .rule r) : Onward net' c d g := by
  refine ⟨he.holds, hg, fun m hm ↦ ?_, he.line⟩
  rw [(he.keeps 0).layout, Layout.core?_of_nodeAt? hn] at hm
  obtain rfl := Option.some.inj hm
  simp [Node.core, Role.kind, hr]

/-- If it is decided that the flow does not loop, or there is nothing to be decided, the invariant
holds again. -/
theorem Enlisted.settled (he : Enlisted net net' c d g)
    (hg : ∀ place, net'.layout.loopKey? g.node = some place →
      ¬ Meets net'.layout net'.flows place g.parent) : Kin net' ∅ := by
  refine { he.kin with apart := fun h f place hf _ hloop hplace ↦ ?_ }
  by_cases hh : h = c
  · subst hh
    obtain rfl := hf.unique he.holds
    exact hg place hplace
  · exact he.kin.apart h f place hf hh hloop hplace

/-- **Taking in a new flow at a rule.** -/
theorem goes_takeInRule (harrive : Welcomes L s room arrive) (hU : Underway L s room net)
    (hc : Newborn net c d g) (hroom : s.maxDepth.toNat ≤ room + d + 1)
    (hn : net.nodeAt? g.node = some n) (hr : n.role = .rule r) :
    Ends (do
      register g.node c
      match ← ask fun net ↦ net.loopOf c with
      | some first => markLooped g.node c first
      | none => if ← recompute g.node c then sendAll arrive g.node c) net (Cut L s) fun _ net' ↦
        Goes L s room d net net' := by
  refine Ends.steady_bind (tame_register _ _).steady fun _ mid hl ↦ ?_
  have he := enlisted_register hl hU.kin hc
  have hsame := (tame_register g.node c).steady.budget hl
  rw [ends_ask_bind]
  intro o ho
  cases o with
  | some first =>
    refine (tame_markLooped _ _ _).steady.ends fun _ net' hmark ↦ ?_
    have hsame' := (tame_markLooped g.node c first).steady.budget hmark
    obtain rfl : net' = withFlow mid c fun f ↦ { f with looped := true } := by
      rw [markLooped, leads_updateFlow_bind] at hmark
      simp only [leads_node_bind, leads_event_bind, leads_report] at hmark
      exact hmark.elim fun _ h ↦ h.2
    exact ⟨hU.step (hsame'.imp (·.trans hsame.1) (·.trans hsame.2)) (he.keeps 0).layout
      (kin_markLooped he), he.keeps_markLooped⟩
  | none =>
    obtain ⟨n', r', hn', hr'⟩ := rule_of_layout (he.keeps 0).layout hn hr
    have hK := he.settled fun place ↦ not_meets_of_loopOf he.kin he.holds hn' ho
    have hmid : Goes L s room d net mid := ⟨hU.step hsame (he.keeps 0).layout hK, he.keeps d⟩
    refine Ends.steady_bind (tame_recompute _ _).steady fun alive mid' hl' ↦ ?_
    have hp : Prunes (d + 1) mid mid' := hl'.prunes_recompute hK
    have hmid' := hmid.trans hU ⟨hmid.underway.prunes (tame_recompute _ _).steady hl' hp,
      hp.toKeeps.mono (Nat.le_succ d)⟩
    obtain ⟨f', ho', -⟩ := (he.onward hc.looped hn hr).keeps hp.toKeeps hK
    split
    · exact (goes_sendAll harrive hmid'.underway ho' hroom).weaken fun _ _ hnext ↦
        hmid'.trans hU (hnext.mono (Nat.le_succ d))
    · exact ends_pure.2 hmid'

/-- **Taking in a new flow at a probe.** -/
theorem goes_takeInProbe {q : Probe} (hU : Underway L s room net) (hc : Newborn net c d g)
    (hn : net.nodeAt? g.node = some n) (hq : n.role = .probe q) :
    Ends (do
      register g.node c
      updateFlow c fun f ↦ { f with processed := some f.input }
      notify g.node c (arrived c)) net (Cut L s) fun _ net' ↦ Goes L s room d net net' := by
  refine Ends.steady_bind (tame_register _ _).steady fun _ mid hl ↦ ?_
  have he := enlisted_register hl hU.kin hc
  have hK : Kin mid ∅ := he.settled fun place hplace ↦ by
    rw [(he.keeps 0).layout, Layout.loopKey?, Layout.core?_of_nodeAt? hn] at hplace
    simp [Node.core, Role.kind, hq] at hplace
  have hmid : Goes L s room d net mid :=
    ⟨hU.step ((tame_register _ _).steady.budget hl) (he.keeps 0).layout hK, he.keeps d⟩
  refine (goes_steady hmid.underway ?_ fun net' hl' ↦ ?_).weaken fun _ _ hnext ↦ hmid.trans hU hnext
  · exact ((tame_updateFlow _ _).bind fun _ ↦ tame_notify _ _ _).steady
  · have hp : Prunes d mid (withFlow mid c fun f ↦ { f with processed := some f.input }) :=
      prunes_withHeaders hK fun _ ↦ ⟨_, _, rfl⟩
    rw [leads_updateFlow_bind] at hl'
    exact hp.trans (hl'.prunes_notify hmid.underway.layout_wellFormed (hp.kin hK)) hK

/-- **Taking in a new flow** works below the flow it came from. -/
theorem goes_takeIn (harrive : Welcomes L s room arrive) (hU : Underway L s room net)
    (hc : Newborn net c d g) (hroom : s.maxDepth.toNat ≤ room + d + 1) :
    Ends (takeIn arrive g.node c) net (Cut L s) fun _ net' ↦ Goes L s room d net net' := by
  rw [takeIn, ends_node_bind]
  intro n hn
  cases hrole : n.role with
  | rule r => exact goes_takeInRule harrive hU hc hroom hn hrole
  | probe q => exact goes_takeInProbe hU hc hn hrole
  | source =>
    obtain ⟨m, hm, hkind⟩ := hc.place
    rw [Layout.core?_of_nodeAt? hn] at hm
    obtain rfl := Option.some.inj hm
    exact absurd (by simp [Node.core, Role.kind, hrole]) hkind

/-- What is asked of the state of a network does not depend on the budget. -/
theorem Newborn.budget {b : Budget} (hc : Newborn net c d g) :
    Newborn { net with budget := b } c d g := by
  obtain ⟨p, f, e, hp, ho, rfl⟩ := hc.parent
  exact ⟨hc.live, hc.children, hc.looped, hc.unlisted,
    ⟨p, f, e, hp, ⟨ho.holds, ho.looped, ho.forwards, ho.line⟩, rfl⟩, hc.place, hc.entered⟩

/-- **Arriving overruns the budget only under strain**, where the room is enough for what is not
above the new flow. -/
theorem arriveWithin_welcomes : ∀ room, Welcomes L s room (arriveWithin room)
  | 0, net, c, g, d, hU, hc, hroom => by
    -- the flows above the new one are at different places, except for the one at a source
    have hle := hc.le hU.kin
    rw [hU.layout] at hle
    exact ends_noRoom hU (.inr (by omega))
  | room + 1, net, c, g, d, hU, hc, hroom =>
    goes_visit hU fun hin ↦ goes_takeIn (arriveWithin_welcomes room) hin hc.budget (by omega)

end HeaderFlow
