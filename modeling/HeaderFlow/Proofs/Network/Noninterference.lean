import HeaderFlow.Proofs.Network.Genealogy
import HeaderFlow.Proofs.Network.Limits
import HeaderFlow.Proofs.Network.Without

/-!
# Sources do not interfere

All flows share the nodes, the pipes and the arena, and a change goes through the flows of all
sources in one walk. Even so **the flows of a source do not depend on which other sources there
are**: without some of them the others have the same trees of flows, up to handles and the
identifiers of sources and probes (`SameForest`).

One change is held to more than that. If a source is added or removed, each flow of another source
is what it was, under the same handle (`Stems`).

## The run that is left

`without D` leaves out the additions of the sources in `D` and their removals, and renames what is
said of other nodes, because identifiers come from a counter. Nothing is assumed of that run but
that it is not broken off: it makes less of the same visits, but by another clock, and a limit of
time is the one thing that may be passed by the run with fewer sources. **That none of its changes
is refused is a part of the conclusion** (`run_without`).

One way of being refused has to be excluded by hand. Sources and probes get their identifiers from a
counter and rules theirs from their places; after 2³² additions the two may meet, and a change that
is to remove one node then finds another. `Mutation.Apart` says that this does not happen in the
sequence, and it takes that many additions for it not to hold (`Mutation.apart_of_lt`). Where it
does not hold the reduced run has to be known to succeed.

## How it is shown

The network with all sources and the one without are twins (`Twins`), where the flows of the sources
in `D` are lost and everything else has a counterpart. Trees are compared by an induction on ranks,
because twins need not have the same slots. The second half of the theorem compares two networks
that have the same twin: the network before a source is added, and the one after.
-/

namespace HeaderFlow

open Mutation

variable {net net' net₁ net₂ : Network} {D : Finset NodeId} {ν ν' : Naming} {n m : Nat}
  {key key' : NodeKey} {h h' : Handle} {f f' g : Flow} {i : NodeId} {bytes : Nat} {s : Settings}
  {clock clock' : Clock} {ms : List Mutation} {mu : Mutation} {reply : Reply}

/-! ### What is the same -/

/-- The node under another key, and under another identifier, unless it is a rule. -/
def Core.renumbered (D : Finset NodeId) (key : NodeKey) (n : Core) : Core :=
  match n.kind with
  | .rule .. => { n with key := key }
  | _ => { n with key := key, id := renumber D n.id }

namespace Network

/-- The nodes are the same, up to keys and identifiers. -/
structure SameNode (D : Finset NodeId) (net net' : Network) (key key' : NodeKey) : Prop where
  found : ∃ k k', net.nodeAt? key = some k ∧ net'.nodeAt? key' = some k' ∧
    k'.core = k.core.renumbered D key'

/-- The pipes lead from the same port of a node to the same port of another, and let the same
headers pass. -/
structure SamePipe (D : Finset NodeId) (net net' : Network) (h h' : Handle) : Prop where
  sides : ∃ a b a' b', net.pipes.find? h = some a ∧ net.pipes.find? a.reverse = some b ∧
    net'.pipes.find? h' = some a' ∧ net'.pipes.find? a'.reverse = some b' ∧
    SameNode D net net' a.node a'.node ∧ a'.port = a.port ∧ a'.pattern = a.pattern ∧
    SameNode D net net' b.node b'.node ∧ b'.port = b.port ∧ b'.pattern = b.pattern

/-- The flows are the same, and so are those that came from them, one by one. -/
inductive SameTree (D : Finset NodeId) (net net' : Network) : Handle → Handle → Prop
  | intro {h h' : Handle} {f f' : Flow} :
    net.flows.find? h = some f → net'.flows.find? h' = some f' →
    SameNode D net net' f.node f'.node → f'.port = f.port →
    Option.Rel (SamePipe D net net') f.pipe f'.pipe → f'.input = f.input →
    f'.processed = f.processed → f'.looped = f.looped →
    List.Forall₂ (SameTree D net net') f.children f'.children → SameTree D net net' h h'

/-- The sources that are not in `D` are there, in the same order, and have the same trees of
flows. -/
def SameForest (D : Finset NodeId) (net net' : Network) : Prop :=
  List.Forall₂
    (fun k k' ↦ SameNode D net net' k.key k'.key ∧
      List.Forall₂ (SameTree D net net') k.flows k'.flows)
    (net.nodes.filter fun k ↦ k.type = .source ∧ k.id ∉ D)
    (net'.nodes.filter fun k ↦ k.type = .source)

/-- The flow belongs to a source. -/
structure Stems (net : Network) (i : NodeId) (h : Handle) (f : Flow) : Prop where
  found : net.flows.find? h = some f
  root : ∃ r k, net.flows.find? f.source = some r ∧ r.parent = none ∧ net.nodeAt? r.node = some k ∧
    k.type = .source ∧ k.id = i

/-- Which flows belong to a source depends on nodes and flows. -/
theorem stems_congr (hflows : net'.flows = net.flows) (hnodes : net'.nodes = net.nodes) :
    net.Stems i h f ↔ net'.Stems i h f := by
  constructor
  · rintro ⟨hf, r, k, hr, hroot, hk, hkind⟩
    exact ⟨hflows ▸ hf, r, k, hflows ▸ hr, hroot, by rwa [nodeAt?, hnodes], hkind⟩
  · rintro ⟨hf, r, k, hr, hroot, hk, hkind⟩
    exact ⟨hflows ▸ hf, r, k, hflows ▸ hr, hroot, by rwa [nodeAt?, ← hnodes], hkind⟩

end Network

open Network

/-! ### Twins have the same trees -/

/-- No flow came to a source from anywhere. -/
theorem Inv.parent_of_source {k : Node} (hI : Inv net ∅ ∅) (hf : net.flows.find? h = some f)
    (hk : net.nodeAt? f.node = some k) (htype : k.type = .source) : f.parent = none := by
  cases hp : f.parent with
  | none => rfl
  | some p =>
    obtain ⟨g, hg⟩ := hI.forest.parent_live hf hp
    obtain ⟨-, fwd, w, -, hw, -, hreceiver, -⟩ := hI.forest.came h f p g hf hp hg
    obtain ⟨-, m, -, -, hm, -, -, hport, -⟩ := hI.layout.ends hw
    rw [hreceiver, Layout.core?_of_nodeAt? hk] at hm
    obtain rfl := Option.some.inj hm
    have hkind := Node.type_eq_source_iff.1 htype
    have hproper := hI.layout.proper k.core (Layout.mem_of_core? (Layout.core?_of_nodeAt? hk))
    rw [Core.Proper, hkind] at hproper
    exact absurd hport (hproper.1 ▸ List.not_mem_nil)

namespace Comparison

section

variable {w : Omission} (hrename : w.rename = renumber w.lost)

include hrename

/-- Nodes that are related have the same core, up to the key and the identifier. -/
theorem Nodes.core_eq {k k' : Node} (hk : (w.comparison n).Nodes ν k k') :
    k'.core = k.core.renumbered w.lost k'.key := by
  obtain ⟨-, hcalled, hrole, haccepts, hsends, hin, hout, hinput, houtput, -⟩ := hk
  obtain ⟨key, id, role, accepts, sends, inPorts, outPorts, inputLayer, outputLayer, _, _, _⟩ := k
  obtain ⟨key', id', role', accepts', sends', inPorts', outPorts', inputLayer', outputLayer', _,
    _, _⟩ := k'
  obtain rfl : accepts' = accepts := optionRel_eq haccepts fun _ _ h ↦ h.symm
  obtain rfl : sends = sends' := hsends
  obtain rfl : inPorts' = inPorts := hin
  obtain rfl : outPorts' = outPorts := hout
  obtain rfl : inputLayer' = inputLayer := hinput
  obtain rfl : outputLayer' = outputLayer := houtput
  dsimp only at hrole hcalled
  cases hrole with
  | @rule r r' hr =>
    have hoverwrite : r'.overwrite = r.overwrite := optionRel_eq hr.overwrite fun w w' hw ↦ by
      obtain ⟨mask, value⟩ := w
      obtain ⟨mask', value'⟩ := w'
      exact congrArg₂ Overwrite.mk hw.1.symm hw.2.symm
    cases hcalled
    simp only [Node.core, Role.kind, Core.renumbered, hr.table, hr.index, hoverwrite]
  | source =>
    cases hcalled
    simp only [Node.core, Role.kind, Core.renumbered, ← hrename]
    rfl
  | probe =>
    cases hcalled
    simp only [Node.core, Role.kind, Core.renumbered, ← hrename]
    rfl

variable (hT : (w.comparison n).AtRest ν net net')

include hT

/-- Nodes under keys that go together are the same node. -/
theorem AtRest.sameNode {k : Node} (hkey : ν.node.Kept key key') (hk : net.nodeAt? key = some k) :
    SameNode w.lost net net' key key' := by
  obtain ⟨k', hk', hkk⟩ := hT.toTwins.node hkey hk
  have hk' : net'.nodeAt? key' = some k' := hk'
  obtain rfl : k'.key = key' := by simpa using List.find?_some hk'
  exact ⟨k, k', hk, hk', hkk.core_eq hrename⟩

/-- **A flow that stays has the same tree.** The induction is on the number of flows with no smaller
rank. -/
theorem AtRest.sameTree (hI : Inv net ∅ ∅) (hh : ν.flow.Kept h h')
    (hf : net.flows.find? h = some f) : SameTree w.lost net net' h h' := by
  obtain ⟨rank, hR⟩ := hT.ranked
  generalize hN : (net.flows.slotsOf rank (rank h ≤ ·)).ncard = N
  induction N using Nat.strong_induction_on generalizing h h' f with
  | _ N ih =>
  obtain ⟨f', hf', hff⟩ := hT.flows.of_live hh hf
  obtain ⟨k, hk⟩ := hI.node hf
  have hbelow := (hR h f hf).2
  refine .intro hf hf' (hT.sameNode hrename hff.node hk) hff.port ?_ hff.input.symm
    (optionRel_eq hff.processed fun _ _ h ↦ h.symm) hff.looped ?_
  · cases hp : f.parent with
    | none =>
      obtain ⟨-, hpipe, -⟩ := hI.forest.root h f hf hp
      have hpipe' : f'.pipe = none := of_optionRel_none (hpipe ▸ hff.pipe)
      rw [hpipe, hpipe']
      exact .none
    | some p =>
      obtain ⟨g, hg⟩ := hI.forest.parent_live hf hp
      obtain ⟨-, fwd, w, hpipe, ⟨a, b, ha, hb, -, rfl⟩, hsender, hreceiver, -⟩ :=
        hI.forest.came h f p g hf hp hg
      obtain ⟨fwd', hpipe', hfwd⟩ := of_optionRel_some (hpipe ▸ hff.pipe)
      obtain ⟨a', ha', haa⟩ := hT.pipes.of_live hfwd ha
      obtain ⟨b', hb', hbb⟩ := hT.pipes.of_live haa.reverse hb
      obtain ⟨l, hl⟩ := hI.node hg
      rw [hpipe, hpipe']
      exact .some ⟨a, b, a', b', ha, hb, ha', hb',
        hT.sameNode hrename haa.node (hsender ▸ hl), haa.port, haa.pattern.symm,
        hT.sameNode hrename hbb.node (hreceiver ▸ hk), hbb.port, hbb.pattern.symm⟩
  · have hmem : Culled (fun c c' ↦ c ∈ f.children ∧ ν.flow.Kept c c')
        (fun _ ↦ False) f.children f'.children :=
      hff.children.imp_mem (fun c hc _ _ hcc ↦ ⟨hc, hcc⟩) fun _ _ hno ↦ hno
    refine (hmem.forall₂ fun _ _ hno ↦ hno).imp fun c c' hc ↦ ?_
    obtain ⟨g, hg, -⟩ := hI.forest.children h f c hf hc.1
    refine ih _ ?_ hc.2 hg rfl
    rw [← hN]
    exact Arena.ncard_slotsOf_lt rank hf (Nat.le_refl _) (Nat.not_le.2 (hbelow c hc.1)) fun k hk ↦
      Nat.le_trans (Nat.le_of_lt (hbelow c hc.1)) hk

/-- **Sources that stay have the same trees of flows.** -/
theorem AtRest.sameForest (hI : Inv net ∅ ∅) : SameForest w.lost net net' := by
  have hnodes := hT.nodes.filter (p := fun k ↦ k.type = .source ∧ k.id ∉ w.lost)
    (q := fun k ↦ k.type = .source) fun k k' hk ↦ by
      rw [hk.type_eq, decide_eq_decide, and_iff_left_iff_imp]
      intro htype
      exact (hk.id_of_type (by rw [htype]; decide)).2.1
  have hmem : Culled (fun k k' ↦ (k ∈ net.nodes ∧ k.type = .source) ∧
      (w.comparison n).Nodes ν k k') (fun _ ↦ False) _ _ := hnodes.imp_mem
    (fun k hk _ _ hkk ↦ ⟨(List.mem_filter.1 hk).imp_right fun h ↦ (of_decide_eq_true h).1, hkk⟩)
    fun k hk hlost ↦ (of_decide_eq_true (List.mem_filter.1 hk).2).2 hlost.gone
  refine (hmem.forall₂ fun _ _ hno ↦ hno).imp fun k k' hk ↦ ?_
  obtain ⟨⟨hk, htype⟩, hkk⟩ := hk
  have hnode : net.nodeAt? k.key = some k := Network.nodeAt?_of_mem hT.nodup hk
  refine ⟨hT.sameNode hrename hkk.key hnode, ?_⟩
  have hlive : ∀ h ∈ k.flows, ∃ f, net.flows.find? h = some f ∧ f.node = k.key := fun h hh ↦
    hI.listed.only k.key h (show h ∈ net.tied Node.flows k.key from tied_of_nodeAt? hnode ▸ hh)
  have hflows : Culled (fun h h' ↦ h ∈ k.flows ∧ ν.flow.Kept h h')
      (fun _ ↦ False) k.flows k'.flows := by
    refine hkk.flows.imp_mem (fun h hh _ _ hhh ↦ ⟨hh, hhh⟩) fun h hh hlost ↦ ?_
    obtain ⟨f, hf, hfnode⟩ := hlive h hh
    have hroot := hI.parent_of_source hf (hfnode ▸ hnode) htype
    exact hkk.key.not_lost (hfnode ▸ (hT.flows.lost h () hlost f hf).root hroot)
  refine (hflows.forall₂ fun _ _ hno ↦ hno).imp fun h h' hh ↦ ?_
  obtain ⟨f, hf, -⟩ := hlive h hh.1
  exact hT.sameTree hrename hI hh.2 hf

end

/-! ### Flows that stay as they are -/

section

variable {T : Comparison n m} {h₁ h₂ : Handle} {f₁ f₂ : Flow}

/-- **A flow of a source that stays has a counterpart.** -/
theorem AtRest.stems (hT : T.AtRest ν net net') (hs : net.Stems i h f) (hi : ¬ T.gone i) :
    ∃ h' f', ν.flow.Kept h h' ∧ net'.flows.find? h' = some f' ∧ T.Flows ν f f' ∧
      net'.Stems (T.rename i) h' f' := by
  obtain ⟨hf, r, k, hr, hroot, hk, htype, rfl⟩ := hs
  obtain ⟨hkey, ⟨k', hkk⟩ | hlost⟩ := hT.toTwins.node_cases hk
  swap
  · exact absurd hlost.gone hi
  have hsource : ∃ g, ν.flow.Kept f.source g := by
    obtain ⟨x, hx⟩ := hT.flows.named _ _ hr
    cases x with
    | kept g => exact ⟨g, hx⟩
    | lost => exact absurd ((hT.flows.lost _ () hx r hr).root hroot) (hkey ▸ hkk.key.not_lost)
  obtain ⟨g, hg⟩ := hsource
  have hh : ∃ h', ν.flow.Kept h h' := by
    obtain ⟨x, hx⟩ := hT.flows.named _ _ hf
    cases x with
    | kept h' => exact ⟨h', hx⟩
    | lost => exact absurd (hT.flows.lost _ () hx f hf).source hg.not_lost
  obtain ⟨h', hh⟩ := hh
  obtain ⟨f', hf', hff⟩ := hT.flows.of_live hh hf
  obtain ⟨r', hr', hrr⟩ := hT.flows.of_live hff.source hr
  obtain ⟨l', hl', hkl⟩ := hT.toTwins.node hrr.node hk
  refine ⟨h', f', hh, hf', hff, hf', r', l', hr', ?_, hl', hkl.type_eq.trans htype, ?_⟩
  · exact of_optionRel_none (hroot ▸ hrr.parent)
  · exact (hkl.id_of_type (by rw [htype]; decide)).1

/-- A flow of the twin is the counterpart of one. -/
theorem AtRest.of_stems (hT : T.AtRest ν net net') (hrename : ∀ i, T.rename i = i)
    (hs : net'.Stems i h' f') :
    ∃ h f, ν.flow.Kept h h' ∧ T.Flows ν f f' ∧ net.Stems i h f := by
  obtain ⟨hf', r', k', hr', hroot, hk', htype, rfl⟩ := hs
  obtain ⟨h, f, hh, hf, hff⟩ := hT.flows.of_live_right hf'
  obtain ⟨g, r, hg, hr, hrr⟩ := hT.flows.of_live_right hr'
  obtain rfl := hT.flows.injective _ _ _ hg hff.source
  have hnodeAt : Option.Rel (T.Nodes ν) (net.nodeAt? r.node) (net'.nodeAt? r'.node) :=
    hT.toTwins.nodeAt? hrr.node
  obtain ⟨k, hk, hkk⟩ := of_optionRel_some_right (hk' ▸ hnodeAt)
  refine ⟨h, f, hh, hff, hf, r, k, hr, ?_, hk, hkk.type_eq.symm.trans htype,
    (hkk.id_eq hrename).symm⟩
  cases hp : r.parent with
  | none => rfl
  | some p =>
    obtain ⟨p', hp', -⟩ := of_optionRel_some (hp ▸ hrr.parent)
    cases hroot.symm.trans hp'

/-- What has the same counterpart is the same. -/
theorem Flows.unique (hnode : ν.node.Injective) (hpipe : ν.pipe.Injective)
    (hflow : ν.flow.Injective) (hspace : ∀ s t u, T.space s u → T.space t u → s = t)
    (hf₁ : T.Flows ν f₁ g) (hf₂ : T.Flows ν f₂ g) : f₁ = f₂ := by
  obtain ⟨hnode₁, hsource₁, hinput₁, hprocessed₁, hport₁, hpipe₁, hparent₁, hchildren₁, hlooped₁⟩ :=
    hf₁
  obtain ⟨hnode₂, hsource₂, hinput₂, hprocessed₂, hport₂, hpipe₂, hparent₂, hchildren₂, hlooped₂⟩ :=
    hf₂
  obtain ⟨node₁, source₁, input₁, processed₁, port₁, pipe₁, parent₁, children₁, looped₁⟩ := f₁
  obtain ⟨node₂, source₂, input₂, processed₂, port₂, pipe₂, parent₂, children₂, looped₂⟩ := f₂
  obtain rfl : node₁ = node₂ := hnode _ _ _ hnode₁ hnode₂
  obtain rfl : source₁ = source₂ := hflow _ _ _ hsource₁ hsource₂
  obtain rfl : input₁ = input₂ := hspace _ _ _ hinput₁ hinput₂
  obtain rfl : processed₁ = processed₂ := optionRel_unique hprocessed₁ hprocessed₂ hspace
  obtain rfl : port₁ = port₂ := hport₁.symm.trans hport₂
  obtain rfl : pipe₁ = pipe₂ := optionRel_unique hpipe₁ hpipe₂ fun _ _ _ h h' ↦ hpipe _ _ _ h h'
  obtain rfl : parent₁ = parent₂ := optionRel_unique hparent₁ hparent₂ fun _ _ _ h h' ↦
    hflow _ _ _ h h'
  obtain rfl : children₁ = children₂ := hchildren₁.unique hchildren₂ fun _ _ _ h h' ↦
    hflow _ _ _ h h'
  obtain rfl : looped₁ = looped₂ := hlooped₁.symm.trans hlooped₂
  rfl

/-- **Networks with the same twin have the same flows** of sources that stay. -/
theorem AtRest.stems_iff (hT₁ : T.AtRest ν net₁ net) (hT₂ : T.AtRest ν' net₂ net') (hν : ν.Grows ν')
    (hflows : net'.flows = net.flows) (hnodes : net'.nodes = net.nodes)
    (hrename : ∀ i, T.rename i = i) (hspace : ∀ s t u, T.space s u → T.space t u → s = t)
    (hi : ¬ T.gone i) : net₂.Stems i h f ↔ net₁.Stems i h f := by
  have hsame : ∀ i h f, net.Stems i h f ↔ net'.Stems i h f := fun _ _ _ ↦ stems_congr hflows hnodes
  have hunique : ∀ {f₁ f₂ g : Flow}, T.Flows ν' f₁ g → T.Flows ν' f₂ g → f₁ = f₂ :=
    Flows.unique hT₂.injective hT₂.pipes.injective hT₂.flows.injective hspace
  constructor
  · intro hs
    obtain ⟨h', f', hh, -, hff, hs'⟩ := hT₂.stems hs hi
    rw [hrename, ← hsame] at hs'
    obtain ⟨h₁, f₁, hh₁, hff₁, hs₁⟩ := hT₁.of_stems hrename hs'
    obtain rfl := hT₂.flows.injective _ _ _ hh (hh₁.grow hν.flow)
    obtain rfl := hunique hff (hff₁.grow hν)
    exact hs₁
  · intro hs
    obtain ⟨h', f', hh, -, hff, hs'⟩ := hT₁.stems hs hi
    rw [hrename, hsame] at hs'
    obtain ⟨h₂, f₂, hh₂, hff₂, hs₂⟩ := hT₂.of_stems hrename hs'
    obtain rfl := hT₂.flows.injective _ _ _ (hh.grow hν.flow) hh₂
    obtain rfl := hunique (hff.grow hν) hff₂
    exact hs₂

end

end Comparison

/-! ### Runs -/

namespace Network

/-- A run that succeeds leads to a network that is reached. -/
theorem Reached.after {spaces : NodeKey → Option Space} (hr : net.Reached spaces)
    (hok : net.Completes ms) : ∃ spaces, (net.after ms).Reached spaces := by
  induction ms generalizing net spaces with
  | nil => exact ⟨spaces, hr⟩
  | cons mu ms ih =>
    obtain ⟨⟨reply, hreply⟩, hok⟩ := completes_cons.1 hok
    exact ih (hr.apply mu hreply) hok

/-- The counter goes up by one for each source and each probe. -/
theorem nextId_after (hok : net.Completes ms) :
    (net.after ms).nextId.toNat = net.nextId.toNat + given ms := by
  induction ms generalizing net with
  | nil => rfl
  | cons mu ms ih =>
    have hlt := bounded_of_completes hok
    obtain ⟨⟨reply, hreply⟩, hok⟩ := completes_cons.1 hok
    have hnext := toNat_next hlt
    rw [← nextId_apply hreply] at hnext
    rw [given_cons] at hlt ⊢
    rw [after_cons, ih hok]
    omega

/-- After any run from a network without nodes there is a twin without the sources in `D`. -/
theorem exists_twin_after (hok : (new bytes s clock).Completes ms)
    (hprobes : ∀ i ∈ addedProbes 1 ms, i ∉ D) :
    ∃ w : Omission, w.lost = D ∧ w.source = (· ∈ addedSources 1 ms) ∧ (∀ i, w.rename i = i) ∧
      ∃ n ν net', (w.comparison n).AtRest ν ((new bytes s clock).after ms) net' := by
  let w : Omission := {
    lost := D
    rename := id
    placed := fun _ ↦ True
    source := (· ∈ addedSources 1 ms)
    owner := fun _ _ ↦ True
    timing := .untimed
    rename_injective := fun _ _ _ _ h ↦ h
    timing_ne := by rintro ⟨⟩ }
  have hvisits : s.maxVisits.toNat = 0 ∨
      0 < s.maxVisits.toNat ∧ s.maxVisits.toNat ≤ s.maxVisits.toNat := by
    omega
  have hnew : (w.comparison bytes).AtRest .empty (new bytes s clock) (new bytes s.untimed .still) :=
    (w.comparison bytes).atRest_new clock .still ⟨rfl, rfl, rfl, rfl⟩ (Nat.le_refl _) hvisits
      ⟨rfl, rfl⟩ rfl
  have hF : w.Foretold (new bytes s clock) ms :=
    ⟨fun _ _ ↦ trivial, fun _ hi ↦ hi, fun _ _ ↦ trivial, hprobes⟩
  exact ⟨w, rfl, rfl, fun _ ↦ rfl, Omission.exists_twin (fun _ ↦ rfl) (by rintro ⟨⟩) hnew hF hok⟩

/-- What is removed as a source was added as one. -/
theorem mem_addedSources_of_removeSource (hok : (new bytes s clock).Completes ms)
    (hreply : (((new bytes s clock).after ms).apply (.removeSource i)).result = .ok reply) :
    i ∈ addedSources 1 ms := by
  obtain ⟨u, hu⟩ := Outcome.of_map hreply
  have hk : ∃ k, ((new bytes s clock).after ms).expect i .source .source = .ok k := expect_of_ok hu
  obtain ⟨k, hk⟩ := hk
  obtain ⟨w, hlost, hsource, -, n, ν, net', hT⟩ := exists_twin_after (D := ∅) hok fun _ _ ↦
    Finset.notMem_empty _
  obtain ⟨k', -, hkk⟩ | ⟨-, hgone, -⟩ := hT.toTwins.expect_cases hk
  · have hrole : k.role = .source := by
      have htype := (expect_eq_ok.1 hk).2
      cases hrole : k.role with
      | source => rfl
      | _ => simp [Node.type, hrole] at htype
    have hmem : w.source i := hT.toTwins.id_of_expect hk ▸ hkk.source hrole
    rwa [hsource] at hmem
  · have hgone : i ∈ w.lost := hgone
    exact absurd (hlost ▸ hgone) (Finset.notMem_empty _)

/-- **What is left of a run that succeeds is not refused, and has the same trees.** -/
theorem run_without (hok : (new bytes s clock).Completes ms) (hD : ∀ d ∈ D, d ∈ addedSources 1 ms)
    (hunbroken : ∀ answer ∈ (new bytes s clock').answers (without D 1 ms), ¬ Overran answer)
    (hfound : Apart ms ∨ (new bytes s clock').Completes (without D 1 ms)) :
    (new bytes s clock').Completes (without D 1 ms) ∧
      SameForest D ((new bytes s clock).after ms)
        ((new bytes s clock').after (without D 1 ms)) := by
  have hlt : (1 : NodeId).toNat + given ms < 2 ^ 64 := bounded_of_completes hok
  have hadded : ∀ i ∈ D, i ∉ addedProbes 1 ms := fun i hi ↦ not_mem_addedProbes hlt (hD i hi)
  have hzero : (0 : NodeId) ∉ D := fun hmem ↦
    absurd (of_mem_ids (fun _ ↦ numbers_of_addsSource) hlt (hD 0 hmem)).1 (by decide)
  let w : Omission := {
    lost := D
    rename := renumber D
    placed := fun r ↦ ∃ spec, .addRule spec ∈ ms ∧ ruleId spec.table spec.index = r
    source := fun _ ↦ True
    owner := fun key i ↦ (key, i) ∈ (new bytes s clock).owners ms
    timing := .own
    rename_injective := fun _ _ ↦ renumber_injective
    timing_ne := by rintro ⟨⟩ }
  have hvisits : s.maxVisits.toNat = 0 ∨
      0 < s.maxVisits.toNat ∧ s.maxVisits.toNat ≤ s.maxVisits.toNat := by
    omega
  have hnew : (w.comparison bytes).AtRest .empty (new bytes s clock) (new bytes s clock') :=
    (w.comparison bytes).atRest_new clock clock' ⟨rfl, rfl, rfl, rfl⟩
      (Nat.le_refl _) hvisits trivial (renumber_one hzero)
  have hF : w.Foretold (new bytes s clock) ms :=
    ⟨fun spec hspec ↦ ⟨spec, hspec, rfl⟩, fun _ _ ↦ trivial, fun _ he ↦ he,
      fun i hi hmem ↦ hadded i hmem hi⟩
  -- identifiers are given out from 1 on, so all of them are below those of rules
  have hdiscerns : Apart ms → ∀ n, (w.comparison n).Discerns := by
    intro hapart n
    refine Omission.discerns ?_ fun _ ↦ renumber_le
    rintro key i _ howner ⟨spec, hspec, rfl⟩
    have hlast := (of_mem_ids (fun _ h ↦ h) hlt (ids_of_mem_owners hok howner)).2
    have hrule := hapart spec hspec
    have hone : (1 : NodeId).toNat = 1 := rfl
    omega
  obtain ⟨hok', n, ν, hT⟩ := Omission.run rfl hnew ⟨_, .new bytes s clock⟩
    (fun _ _ _ ↦ owners_unique hok) hF hok hunbroken (hfound.imp_left hdiscerns)
  obtain ⟨spaces, hreached⟩ := (Reached.new bytes s clock).after hok
  exact ⟨hok', hT.sameForest rfl hreached.atRest.1.inv⟩

/-- **Sources do not interfere.** What is left of a run without some of them succeeds, unless it is
broken off, and the others have the same trees of flows; each of the two runs sees its own clock. If
a source is added or removed, all flows of others stay as they are.

That nothing else can keep what is left from succeeding is said of runs that are `Apart`, in which
no source and no probe gets the identifier of a rule. Without that it is said of what is left that
the trees are the same if it succeeds. -/
theorem noninterference (hok : (new bytes s clock).Completes ms) :
    (∀ D : Finset NodeId, (∀ d ∈ D, d ∈ addedSources 1 ms) →
      (∀ answer ∈ (new bytes s clock').answers (without D 1 ms), ∀ overrun,
        answer ≠ .error (.tooComplex overrun)) →
      Apart ms ∨ (new bytes s clock').Completes (without D 1 ms) →
      (new bytes s clock').Completes (without D 1 ms) ∧
        SameForest D ((new bytes s clock).after ms) ((new bytes s clock').after (without D 1 ms))) ∧
    ∀ mu reply, (((new bytes s clock).after ms).apply mu).result = .ok reply →
      ∀ j, mu.concerns {j} ((new bytes s clock).after ms).nextId = true → ∀ i ≠ j, ∀ h f,
        (((new bytes s clock).after ms).apply mu).network.Stems i h f ↔
          ((new bytes s clock).after ms).Stems i h f := by
  constructor
  · intro D hD hunbroken hfound
    exact run_without hok hD (fun answer ha ⟨overrun, he⟩ ↦ hunbroken answer ha overrun he) hfound
  · intro mu reply hreply j hmu i hij h f
    have hlt : (1 : NodeId).toNat + given ms < 2 ^ 64 := bounded_of_completes hok
    have hprobes : ∀ i ∈ addedProbes 1 ms, i ∉ ({j} : Finset NodeId) := by
      intro i hi hmem
      obtain rfl := Finset.mem_singleton.1 hmem
      obtain ⟨-, hmem⟩ | ⟨d, hmem, rfl⟩ := of_concerns hmu
      · have hbound := (of_mem_ids (fun _ ↦ numbers_of_addsProbe) hlt hi).2
        have hcounter : ((new bytes s clock).after ms).nextId.toNat =
            (1 : NodeId).toNat + given ms :=
          nextId_after hok
        rw [← Finset.mem_singleton.1 hmem, hcounter] at hbound
        exact absurd hbound (Nat.lt_irrefl _)
      · obtain rfl := Finset.mem_singleton.1 hmem
        exact not_mem_addedProbes hlt (mem_addedSources_of_removeSource hok hreply) hi
    obtain ⟨w, hlost, -, hrename, n, ν, net', hT⟩ := exists_twin_after hok hprobes
    have hspace : ∀ s t u : Space, s = u → t = u → s = t := fun _ _ _ h h' ↦ h.trans h'.symm
    have hi : i ∉ w.lost := hlost ▸ Finset.notMem_singleton.2 hij
    have hnext : w.rename (((new bytes s clock).after ms).nextId + 1) =
        w.rename ((new bytes s clock).after ms).nextId + 1 := by rw [hrename, hrename]
    obtain ⟨hadds, hmem⟩ | ⟨d, hmem, rfl⟩ := of_concerns hmu
    · have hgone : ((new bytes s clock).after ms).nextId ∈ w.lost := hlost ▸ hmem
      obtain ⟨ν', hν, hT'⟩ :=
        Comparison.AtRest.apply_add_lost (hT.countUp hnext) (fun h ↦ h) hadds hgone hreply
      exact hT.stems_iff hT' hν rfl rfl hrename hspace hi
    · have hgone : d ∈ w.lost := hlost ▸ hmem
      obtain ⟨ν', hν, hT'⟩ := hT.apply_remove_lost (fun h ↦ h) hgone hreply
      exact hT.stems_iff hT' hν rfl rfl hrename hspace hi

/-- Two sources whose headers reach a rule, which writes into them. -/
def confluence : List Mutation :=
  [.addTable 1 [11, 12], .addLink ⟨1, 11⟩, .addLink ⟨2, 11⟩, .addSourcePattern (.allWild 1) [1],
    .addSourcePattern ((Pattern.allWild 1).put 0 .one) [2],
    .addRule {
      table := 1, index := 1, inPorts := [], outPorts := [12], accepts := .allWild 1
      mask := some ((Pattern.fill 1 .zero).put 1 .one), value := some (.fill 1 .zero) }]

/-- The second source has the same flows without the first one, and if that is removed. -/
theorem noninterference_confluence : (new 1 .default).Completes (without {1} 1 confluence) ∧
    SameForest {1} ((new 1 .default).after confluence)
      ((new 1 .default).after (without {1} 1 confluence)) ∧
    ∀ h f, (((new 1 .default).after confluence).apply (.removeSource 1)).network.Stems 2 h f ↔
      ((new 1 .default).after confluence).Stems 2 h f := by
  have hok : (new 1 .default).Completes confluence := by decide +kernel
  have hok' : (new 1 .default).Completes (without {1} 1 confluence) := by decide +kernel
  have hremove : ((new 1 .default).after confluence).Completes [.removeSource 1] := by
    decide +kernel
  obtain ⟨⟨reply, hreply⟩, -⟩ := completes_cons.1 hremove
  have hunbroken : ∀ answer ∈ (new 1 .default).answers (without {1} 1 confluence), ∀ overrun,
      answer ≠ .error (.tooComplex overrun) := by
    rintro answer ha overrun rfl
    obtain ⟨reply, ⟨⟩⟩ := hok' _ ha
  have htable : ∀ spec, .addRule spec ∈ confluence → spec.table ≠ 0 := by simp [confluence]
  have happart : Apart confluence := apart_of_lt (by decide) htable
  have hadded : ∀ d ∈ ({1} : Finset NodeId), d ∈ addedSources 1 confluence := by
    intro d hd
    rw [Finset.mem_singleton.1 hd]
    decide
  obtain ⟨hforest, hflows⟩ := noninterference hok
  obtain ⟨hleft, hsame⟩ := hforest {1} hadded hunbroken (.inl happart)
  exact ⟨hleft, hsame, hflows _ _ hreply 1 (by decide) 2 (by decide)⟩

end Network

end HeaderFlow
