import HeaderFlow.Proofs.Network.Ending
import HeaderFlow.Proofs.Network.Headers
import Mathlib.Data.Finset.Dedup
import Mathlib.Data.Finset.Card

/-!
# Flows and those they came from

A change that is broken off can leave a flow in the arena that is on no list, and a later change can
drop the flow that such a flow came from. So what holds in *every* state is said of the flows that
are listed at their nodes only (`Network.Holds`), and a flow that another came from may be gone.

`Kin` says what remains true then. The flow that a flow came from goes on: it is not looped and not
at a probe. **A flow at a rule that is not looped did not meet the place of that rule on its way**;
this is decided once, when the flow arrives, and stays true because ways never change.

`Line` counts how many flows there are on the way up. By `Kin` their places differ, so the number of
places bounds it (`Kin.line_le`). A visit of a flow changes nothing above it (`Keeps`), which is why
the places on its way are still the same when its children are visited.

## The weaker brother of the forest

`Line` and `Kin` are to networks that were broken off what `Depth` and `Forest` are to networks at
rest. A line may end at a flow that is gone, so nothing is said of sources, and nothing is owed
because nothing is said of headers. What is left is enough for the two questions that matter there:
how deep visits are nested, and whether walks end.

`Keeps`, `Prunes` and `Sheds` compare two networks: what is above a depth is kept; no flow has come,
and the lines above a depth are kept; no flow has come. The second implies the third, and `Sheds`
alone keeps `Kin`.
-/

namespace HeaderFlow

variable {net net' net'' : Network} {L : Layout} {F F' : Arena Flow} {X : Set Handle}
  {h p c : Handle} {f g : Flow} {d e : Nat} {key : NodeKey} {place : UInt64} {P P' : Flow → Prop}

/-! ### Places -/

namespace Layout

/-- The places that count when loops are looked for. -/
def places (L : Layout) : Finset UInt64 :=
  (L.cores.filterMap fun n ↦ L.loopKey? n.key).toFinset

/-- A rule counts as one of the places. -/
theorem mem_places (hplace : L.loopKey? key = some place) : place ∈ L.places := by
  rw [places, List.mem_toFinset, List.mem_filterMap]
  cases hn : L.core? key with
  | none => simp [loopKey?, hn] at hplace
  | some n => exact ⟨n, mem_of_core? hn, key_of_core? hn ▸ hplace⟩

/-- The node sends headers on, if it is there. -/
def Forwards (L : Layout) (key : NodeKey) : Prop := ∀ n, L.core? key = some n → n.kind ≠ .probe

/-- All that matters here about a node: its type, and what of its identifier counts when loops are
looked for. -/
def face? (L : Layout) (key : NodeKey) : Option (NodeType × UInt64) :=
  (L.core? key).map fun n ↦ (n.kind.type, n.id &&& L.keyMask)

variable {L' : Layout}

/-- A node with the same face was there. -/
theorem exists_core?_of_face? {n : Core} (hface : L'.face? key = L.face? key)
    (hn : L'.core? key = some n) : ∃ m, L.core? key = some m ∧ m.kind.type = n.kind.type ∧
      m.id &&& L.keyMask = n.id &&& L'.keyMask := by
  rw [face?, face?, hn] at hface
  obtain ⟨m, hm, hpair⟩ := Option.map_eq_some_iff.1 hface.symm
  exact ⟨m, hm, congrArg Prod.fst hpair, congrArg Prod.snd hpair⟩

/-- It counted as the same place. -/
theorem loopKey?_of_face? (hface : L'.face? key = L.face? key)
    (hplace : L'.loopKey? key = some place) : L.loopKey? key = some place := by
  cases hn : L'.core? key with
  | none => simp [loopKey?, hn] at hplace
  | some n =>
    obtain ⟨m, hm, htype, hid⟩ := exists_core?_of_face? hface hn
    rw [loopKey?, hn] at hplace
    rw [loopKey?, hm]
    cases hk : n.kind <;> cases hk' : m.kind <;> simp_all [Kind.type]

/-- A node that forwards goes on doing so. -/
theorem forwards_of_face? (hface : L'.face? key = L.face? key) (hf : L.Forwards key) :
    L'.Forwards key := by
  intro n hn hkind
  obtain ⟨m, hm, htype, -⟩ := exists_core?_of_face? hface hn
  refine hf m hm ?_
  cases hk : m.kind <;> simp_all [Kind.type]

theorem source_of_face? {n : Core} (hface : L'.face? key = L.face? key) (hn : L'.core? key = some n)
    (hkind : n.kind = .source) : ∃ m, L.core? key = some m ∧ m.kind = .source := by
  obtain ⟨m, hm, htype, -⟩ := exists_core?_of_face? hface hn
  refine ⟨m, hm, ?_⟩
  cases hk : m.kind <;> simp_all [Kind.type]

end Layout

/-- The places of the rules: what of their identifiers counts when loops are looked for. -/
def Network.places (net : Network) : Finset UInt64 :=
  (net.nodes.filterMap fun n ↦
    n.rule?.map fun _ ↦ n.id &&& net.settings.loopDetection.keyMask).toFinset

/-- The places of the layout are those of the rules. -/
theorem Network.mem_places_of_layout (hplace : place ∈ net.layout.places) : place ∈ net.places := by
  rw [Layout.places, List.mem_toFinset, List.mem_filterMap] at hplace
  obtain ⟨n, -, hplace⟩ := hplace
  rw [Layout.loopKey?, Layout.core?_layout] at hplace
  cases hm : net.nodeAt? n.key with
  | none => simp [hm] at hplace
  | some m =>
    rw [places, List.mem_toFinset, List.mem_filterMap]
    refine ⟨m, (Engine.nodeAt?_eq_some hm).1, ?_⟩
    cases hr : m.role with
    | rule r => simpa [hm, Node.core, Role.kind, Node.rule?, hr, Network.layout] using hplace
    | source => simp [hm, Node.core, Role.kind, hr] at hplace
    | probe q => simp [hm, Node.core, Role.kind, hr] at hplace

/-! ### The line of a flow -/

/-- There are `d` flows above the flow, up to one that came from nowhere or from a flow that is
gone. -/
inductive Line (F : Arena Flow) : Handle → Nat → Prop
  | top {h : Handle} {f : Flow} :
    F.find? h = some f → (∀ p, f.parent = some p → F.Past p) → Line F h 0
  | step {h p : Handle} {f : Flow} {d : Nat} :
    F.find? h = some f → f.parent = some p → Line F p d → Line F h (d + 1)

namespace Line

/-- A flow with a line is there. -/
theorem live (hd : Line F h d) : ∃ f, F.find? h = some f := by
  cases hd with
  | top hf => exact ⟨_, hf⟩
  | step hf => exact ⟨_, hf⟩

theorem not_past (hd : Line F h d) : ¬ F.Past h := fun hp ↦ by
  obtain ⟨f, hf⟩ := hd.live
  exact absurd (hp.find?_eq_none.symm.trans hf) (by simp)

/-- A flow has one line. -/
theorem unique (hd : Line F h d) (he : Line F h e) : d = e := by
  induction hd generalizing e with
  | top hf hp =>
    cases he with
    | top => rfl
    | step hf' hp' hd' =>
      obtain rfl := Option.some.inj (hf.symm.trans hf')
      exact absurd (hp _ hp') hd'.not_past
  | step hf hp hd ih =>
    cases he with
    | top hf' hp' =>
      obtain rfl := Option.some.inj (hf.symm.trans hf')
      exact absurd (hp' _ hp) hd.not_past
    | step hf' hp' hd' =>
      obtain rfl := Option.some.inj (hf.symm.trans hf')
      obtain rfl := Option.some.inj (hp.symm.trans hp')
      rw [ih hd']

/-- The flow above is one nearer to the top. -/
theorem above (hd : Line F h d) (hf : F.find? h = some f) (hp : f.parent = some p)
    (hlive : ¬ F.Past p) : ∃ e, d = e + 1 ∧ Line F p e := by
  cases hd with
  | top hf' hp' =>
    obtain rfl := Option.some.inj (hf.symm.trans hf')
    exact absurd (hp' _ hp) hlive
  | step hf' hp' hd =>
    obtain rfl := Option.some.inj (hf.symm.trans hf')
    obtain rfl := Option.some.inj (hp.symm.trans hp')
    exact ⟨_, rfl, hd⟩

/-- The flows on the way up are all different. -/
theorem exists_chain (hd : Line F h d) :
    ∃ l : List Handle, l.Nodup ∧ l.length = d + 1 ∧ ∀ g ∈ l, ∃ e ≤ d, Line F g e := by
  induction hd with
  | @top h f hf hp =>
    refine ⟨[h], by simp, rfl, fun g hg ↦ ⟨0, Nat.le_refl 0, ?_⟩⟩
    rw [List.mem_singleton.1 hg]
    exact .top hf hp
  | @step h p f d hf hp hd ih =>
    obtain ⟨l, hnodup, hlen, hl⟩ := ih
    refine ⟨h :: l, List.nodup_cons.2 ⟨fun hmem ↦ ?_, hnodup⟩, by simp [hlen], fun g hg ↦ ?_⟩
    · obtain ⟨e, he, hde⟩ := hl h hmem
      have := hde.unique (.step hf hp hd)
      omega
    · rcases List.mem_cons.1 hg with rfl | hg
      · exact ⟨d + 1, Nat.le_refl _, .step hf hp hd⟩
      · obtain ⟨e, he, hde⟩ := hl g hg
        exact ⟨e, by omega, hde⟩

/-- **A line is shorter than the arena.** -/
theorem lt_size (hd : Line F h d) : d < F.slots.size := by
  obtain ⟨l, hnodup, hlen, hl⟩ := hd.exists_chain
  have hle := Arena.length_le_of_live hnodup fun g hg ↦ (hl g hg).elim fun e he ↦ he.2.live
  omega

end Line

/-! ### Flows that are listed -/

/-- The flow is there, and its node lists it. -/
def Network.Holds (net : Network) (h : Handle) (f : Flow) : Prop :=
  net.flows.find? h = some f ∧ h ∈ net.roster f.node

/-- The handle names a listed flow with the property, or a flow that is gone. -/
def Network.Traces (net : Network) (P : Flow → Prop) (h : Handle) : Prop :=
  net.flows.Past h ∨ ∃ f, net.Holds h f ∧ P f

namespace Network

/-- A handle names one flow. -/
theorem Holds.unique (hf : net.Holds h f) (hg : net.Holds h g) : f = g :=
  Option.some.inj (hf.1.symm.trans hg.1)

theorem Holds.not_past (hf : net.Holds h f) : ¬ net.flows.Past h := fun hp ↦
  absurd (hp.find?_eq_none.symm.trans hf.1) (by simp)

/-- The node of a listed flow is there. -/
theorem exists_nodeAt?_of_roster (hmem : h ∈ net.roster key) : ∃ n, net.nodeAt? key = some n := by
  rw [roster, tied] at hmem
  cases hn : net.nodeAt? key with
  | none => simp [hn] at hmem
  | some n => exact ⟨n, rfl⟩

/-- The node of a listed flow is there. -/
theorem Holds.core (hf : net.Holds h f) : ∃ n, net.layout.core? f.node = some n := by
  obtain ⟨n, hn⟩ := exists_nodeAt?_of_roster hf.2
  exact ⟨n.core, Layout.core?_of_nodeAt? hn⟩

theorem Traces.imp (ht : net.Traces P h) (hP : ∀ f, P f → P' f) : net.Traces P' h :=
  ht.imp_right fun ⟨f, hf, hPf⟩ ↦ ⟨f, hf, hP f hPf⟩

theorem Traces.of_live (ht : net.Traces P h) (hf : net.flows.find? h = some f) :
    net.Holds h f ∧ P f := by
  obtain hp | ⟨f', hf', hPf⟩ := ht
  · exact absurd (hp.find?_eq_none.symm.trans hf) (by simp)
  · obtain rfl := Option.some.inj (hf'.1.symm.trans hf)
    exact ⟨hf', hPf⟩

end Network

/-! ### What holds in every state -/

/-- What holds of the listed flows in every state. Of the flows in `X` it is not known yet whether
they are looped. -/
structure Kin (net : Network) (X : Set Handle) : Prop where
  valid : net.flows.Valid
  roster : ∀ key, ∀ h ∈ net.roster key, ∃ f, net.flows.find? h = some f ∧ f.node = key
  parent : ∀ h f p, net.Holds h f → f.parent = some p →
    net.Traces (fun g ↦ g.looped = false ∧ net.layout.Forwards g.node) p
  children : ∀ h f c, net.Holds h f → c ∈ f.children → net.Traces (fun g ↦ g.parent = some h) c
  source : ∀ h f n, net.Holds h f → net.layout.core? f.node = some n → n.kind = .source →
    f.parent = none
  apart : ∀ h f place, net.Holds h f → h ∉ X → f.looped = false →
    net.layout.loopKey? f.node = some place → ¬ Meets net.layout net.flows place f.parent
  line : ∀ h f, net.Holds h f → ∃ d, Line net.flows h d

namespace Kin

/-- What a node lists is there, at this node. -/
theorem holds (hK : Kin net X) (hmem : h ∈ net.roster key) : ∃ f, net.Holds h f ∧ f.node = key := by
  obtain ⟨f, hf, rfl⟩ := hK.roster key h hmem
  exact ⟨f, ⟨hf, hmem⟩, rfl⟩

/-- A handle that has not been issued yet is on no list. -/
theorem not_mem_roster (hK : Kin net X) (hh : net.flows.find? h = none) : h ∉ net.roster key :=
  fun hmem ↦ by
    obtain ⟨f, hf, -⟩ := hK.roster key h hmem
    exact absurd (hh.symm.trans hf) (by simp)

/-- A flow that goes on and is above no probe is at a rule, unless it is at a source. -/
theorem isRule {n : Core} (hK : Kin net X) (hf : net.Holds h f) (hp : f.parent = some p)
    (hforwards : net.layout.Forwards f.node) (hn : net.layout.core? f.node = some n) :
    ∃ place, net.layout.loopKey? f.node = some place := by
  rw [Layout.loopKey?, hn]
  cases hkind : n.kind with
  | rule => simp [hkind]
  | source => exact absurd (hK.source h f n hf hn hkind) (by simp [hp])
  | probe => exact absurd hkind (hforwards n hn)

/-- The places on the way up from a flow that goes on, which are all different. -/
theorem exists_places (hK : Kin net ∅) (hf : net.Holds h f) (hloop : f.looped = false)
    (hforwards : net.layout.Forwards f.node) (hd : Line net.flows h d) :
    ∃ places : List UInt64, places.Nodup ∧ places.length = d ∧ ∀ place ∈ places,
      place ∈ net.layout.places ∧ Meets net.layout net.flows place (some h) := by
  induction hd generalizing f with
  | top => exact ⟨[], by simp⟩
  | @step h p f' d hf' hp hd ih =>
    obtain rfl := Option.some.inj (hf.1.symm.trans hf')
    obtain ⟨g, hg⟩ := hd.live
    obtain ⟨hg, hgloop, hgforwards⟩ := (hK.parent h f p hf hp).of_live hg
    obtain ⟨places, hnodup, hlen, hplaces⟩ := ih hg hgloop hgforwards
    obtain ⟨n, hn⟩ := hf.core
    obtain ⟨place, hplace⟩ := hK.isRule hf hp hforwards hn
    have hnew : ¬ Meets net.layout net.flows place (some p) :=
      hp ▸ hK.apart h f place hf (Set.notMem_empty h) hloop hplace
    refine ⟨place :: places, List.nodup_cons.2 ⟨fun hmem ↦ hnew (hplaces place hmem).2, hnodup⟩,
      by simp [hlen], fun q hq ↦ ?_⟩
    rcases List.mem_cons.1 hq with rfl | hq
    · exact ⟨Layout.mem_places hplace, .here hf.1 hplace⟩
    · exact ⟨(hplaces q hq).1, .above hf.1 (hp ▸ (hplaces q hq).2)⟩

/-- **The places bound the line of a flow that goes on.** -/
theorem line_le (hK : Kin net ∅) (hf : net.Holds h f) (hloop : f.looped = false)
    (hforwards : net.layout.Forwards f.node) (hd : Line net.flows h d) :
    d ≤ net.layout.places.card := by
  obtain ⟨places, hnodup, rfl, hplaces⟩ := hK.exists_places hf hloop hforwards hd
  rw [← List.toFinset_card_of_nodup hnodup]
  exact Finset.card_le_card fun place hplace ↦ (hplaces place (List.mem_toFinset.1 hplace)).1

/-- A flow that goes no further is at most one below a flow that goes on. -/
theorem line_le_succ (hK : Kin net ∅) (hf : net.Holds h f) (hd : Line net.flows h d) :
    d ≤ net.layout.places.card + 1 := by
  cases hd with
  | top => exact Nat.zero_le _
  | step hf' hp hd =>
    obtain rfl := Option.some.inj (hf.1.symm.trans hf')
    obtain ⟨g, hg⟩ := hd.live
    obtain ⟨hg, hloop, hforwards⟩ := (hK.parent _ _ _ hf hp).of_live hg
    exact Nat.succ_le_succ (hK.line_le hg hloop hforwards hd)

end Kin

/-! ### What a computation leaves alone -/

/-- What a computation at a flow with `d` flows above it leaves alone. Listed flows stay where they
are for as long as they are there, and those with fewer than `d` flows above are there for good.
**Nothing new arrives where no pipe leads.** -/
structure Keeps (d : Nat) (net net' : Network) : Prop where
  layout : net'.layout = net.layout
  past : ∀ h, net.flows.Past h → net'.flows.Past h
  kept : ∀ h f, net.Holds h f → net'.Traces (fun g ↦ g.way = f.way ∧ g.looped = f.looped) h
  spares : ∀ h f e, net.Holds h f → Line net.flows h e → e < d → ¬ net'.flows.Past h
  closed : ∀ key, net.layout.prev key = [] → net'.roster key ⊆ net.roster key

namespace Keeps

theorem mono (hk : Keeps d net net') (hle : e ≤ d) : Keeps e net net' :=
  { hk with spares := fun h f k hf hd hlt ↦ hk.spares h f k hf hd (by omega) }

/-- A flow near enough to the top is listed still. -/
theorem holds (hk : Keeps d net net') (hf : net.Holds h f) (hd : Line net.flows h e) (hlt : e < d) :
    ∃ f', net'.Holds h f' ∧ f'.way = f.way ∧ f'.looped = f.looped :=
  (hk.kept h f hf).resolve_left (hk.spares h f e hf hd hlt)

/-- A flow near enough to the top has as many flows above it as before. -/
theorem line (hk : Keeps d net net') (hK : Kin net X) (hf : net.Holds h f) (hd : Line net.flows h e)
    (hlt : e < d) : Line net'.flows h e := by
  induction hd generalizing f with
  | @top h g hg hp =>
    obtain ⟨f', hf', hway, -⟩ := hk.holds hf (.top hg hp) hlt
    obtain rfl := Option.some.inj (hf.1.symm.trans hg)
    exact .top hf'.1 fun p hp' ↦ hk.past p (hp p ((Flow.parent_eq hway).symm.trans hp'))
  | @step h p g e hg hp hd ih =>
    obtain ⟨f', hf', hway, -⟩ := hk.holds hf (.step hg hp hd) hlt
    obtain rfl := Option.some.inj (hf.1.symm.trans hg)
    obtain ⟨q, hq⟩ := hd.live
    obtain ⟨hq, -⟩ := (hK.parent h f p hf hp).of_live hq
    exact .step hf'.1 ((Flow.parent_eq hway).trans hp) (ih hq (by omega))

/-- A handle that was traced can be traced still. -/
theorem traces (hk : Keeps d net net') (ht : net.Traces P h)
    (hP : ∀ f f', f'.way = f.way → f'.looped = f.looped → P f → P' f') : net'.Traces P' h := by
  obtain hp | ⟨f, hf, hPf⟩ := ht
  · exact .inl (hk.past h hp)
  · exact (hk.kept h f hf).imp fun f' ⟨hway, hloop⟩ ↦ hP f f' hway hloop hPf

theorem refl (d : Nat) (net : Network) : Keeps d net net :=
  ⟨rfl, fun _ hp ↦ hp, fun _ f hf ↦ .inr ⟨f, hf, rfl, rfl⟩, fun _ _ _ hf _ _ ↦ hf.not_past,
    fun _ _ ↦ List.Subset.refl _⟩

/-- Two computations keep what both do. -/
theorem trans (h₁ : Keeps d net net') (h₂ : Keeps d net' net'') (hK : Kin net X) :
    Keeps d net net'' where
  layout := h₂.layout.trans h₁.layout
  past h hp := h₂.past h (h₁.past h hp)
  kept h f hf := h₂.traces (h₁.kept h f hf) fun _ _ hway hloop hP ↦
    ⟨hway.trans hP.1, hloop.trans hP.2⟩
  spares h f e hf hd hlt := by
    obtain ⟨f', hf', -⟩ := h₁.holds hf hd hlt
    exact h₂.spares h f' e hf' (h₁.line hK hf hd hlt) hlt
  closed key hkey :=
    List.Subset.trans (h₂.closed key (h₁.layout ▸ hkey)) (h₁.closed key hkey)

end Keeps

/-- The computation has brought no flow. Some may be gone, and what came from the others may be, but
nothing else about them has changed that matters here. -/
structure Prunes (d : Nat) (net net' : Network) : Prop extends Keeps d net net' where
  valid : net'.flows.Valid
  roster : ∀ key, ∀ h ∈ net'.roster key, ∃ f, net'.flows.find? h = some f ∧ f.node = key
  old : ∀ h f', net'.Holds h f' → ∃ f, net.Holds h f ∧ f'.way = f.way ∧ f'.looped = f.looped ∧
    f'.children ⊆ f.children

namespace Prunes

theorem refl (d : Nat) (hK : Kin net X) : Prunes d net net :=
  ⟨.refl d net, hK.valid, hK.roster, fun _ f hf ↦ ⟨f, hf, rfl, rfl, List.Subset.refl _⟩⟩

/-- Two computations bring no flow if neither does. -/
theorem trans (h₁ : Prunes d net net') (h₂ : Prunes d net' net'') (hK : Kin net X) :
    Prunes d net net'' := by
  refine ⟨h₁.toKeeps.trans h₂.toKeeps hK, h₂.valid, h₂.roster, fun h f'' hf'' ↦ ?_⟩
  obtain ⟨f', hf', hway', hloop', hchildren'⟩ := h₂.old h f'' hf''
  obtain ⟨f, hf, hway, hloop, hchildren⟩ := h₁.old h f' hf'
  exact ⟨f, hf, hway'.trans hway, hloop'.trans hloop,
    List.Subset.trans hchildren' hchildren⟩

theorem mono (hp : Prunes d net net') (hle : e ≤ d) : Prunes e net net' :=
  { hp with toKeeps := hp.toKeeps.mono hle }

end Prunes

/-! ### Where no flow comes

Here the layout may have changed, as long as it has not where flows are. -/

/-- No flow has come. Some may be gone, but nothing about the others has changed that matters. -/
structure Sheds (net net' : Network) : Prop where
  past : ∀ h, net.flows.Past h → net'.flows.Past h
  kept : ∀ h f, net.Holds h f → net'.Traces (fun g ↦ g.way = f.way ∧ g.looped = f.looped) h
  valid : net'.flows.Valid
  roster : ∀ key, ∀ h ∈ net'.roster key, ∃ f, net'.flows.find? h = some f ∧ f.node = key
  old : ∀ h f', net'.Holds h f' → ∃ f, net.Holds h f ∧ f'.way = f.way ∧ f'.looped = f.looped ∧
    f'.children ⊆ f.children
  face : ∀ h f, net.Holds h f → net'.layout.face? f.node = net.layout.face? f.node

namespace Sheds

/-- A handle that was traced can be traced still, although flows have gone. -/
theorem traces (hp : Sheds net net') (ht : net.Traces P h)
    (hP : ∀ q f f', net.Holds q f → f'.way = f.way → f'.looped = f.looped → P f → P' f') :
    net'.Traces P' h := by
  obtain hpast | ⟨f, hf, hPf⟩ := ht
  · exact .inl (hp.past h hpast)
  · exact (hp.kept h f hf).imp fun f' ⟨hway, hloop⟩ ↦ hP h f f' hf hway hloop hPf

/-- What is met now was met before. -/
theorem meets {o : Option Handle} (hp : Sheds net net')
    (hparent : ∀ h f p, net'.Holds h f → f.parent = some p → net'.Traces (fun _ ↦ True) p)
    (ho : ∀ p, o = some p → net'.Traces (fun _ ↦ True) p)
    (hm : Meets net'.layout net'.flows place o) : Meets net.layout net.flows place o := by
  induction hm with
  | @here h f' hf' hplace =>
    obtain ⟨f, hf, hway, -⟩ := hp.old h f' ((ho h rfl).of_live hf').1
    rw [Flow.node_eq hway] at hplace
    exact .here hf.1 (Layout.loopKey?_of_face? (hp.face h f hf) hplace)
  | @above h f' hf' _ ih =>
    have hf' := ((ho h rfl).of_live hf').1
    obtain ⟨f, hf, hway, -⟩ := hp.old h f' hf'
    exact .above hf.1 (Flow.parent_eq hway ▸ ih fun p hp ↦ hparent h f' p hf' hp)

/-- A line can only have become shorter. -/
theorem shorter (hp : Sheds net net') (hK : Kin net X) (hd : Line net.flows h e) {f' : Flow}
    (hf' : net'.Holds h f') : ∃ k, Line net'.flows h k := by
  induction hd generalizing f' with
  | @top h g hg hpast =>
    obtain ⟨f, hf, hway, -⟩ := hp.old h f' hf'
    obtain rfl := Option.some.inj (hf.1.symm.trans hg)
    exact ⟨0, .top hf'.1 fun p hp' ↦ hp.past p (hpast p ((Flow.parent_eq hway).symm.trans hp'))⟩
  | @step h p g e hg hgp hd ih =>
    obtain ⟨f, hf, hway, -⟩ := hp.old h f' hf'
    obtain rfl := Option.some.inj (hf.1.symm.trans hg)
    have hparent := (Flow.parent_eq hway).trans hgp
    obtain ⟨q, hq⟩ := hd.live
    obtain hpast | ⟨q', hq', -⟩ := hp.kept p q ((hK.parent h f p hf hgp).of_live hq).1
    · refine ⟨0, .top hf'.1 fun p' hp' ↦ ?_⟩
      obtain rfl := Option.some.inj (hparent.symm.trans hp')
      exact hpast
    · obtain ⟨k, hk⟩ := ih hq'
      exact ⟨k + 1, .step hf'.1 hparent hk⟩

/-- **Where no flow comes, what holds of the listed flows goes on to hold.** -/
theorem kin (hp : Sheds net net') (hK : Kin net X) : Kin net' X := by
  have hparent : ∀ h f' p, net'.Holds h f' → f'.parent = some p →
      net'.Traces (fun g ↦ g.looped = false ∧ net'.layout.Forwards g.node) p := by
    intro h f' p hf' hfp
    obtain ⟨f, hf, hway, -⟩ := hp.old h f' hf'
    refine hp.traces (hK.parent h f p hf ((Flow.parent_eq hway).symm.trans hfp)) ?_
    intro q g g' hg hway hloop ⟨hlooped, hforwards⟩
    refine ⟨hloop.trans hlooped, Flow.node_eq hway ▸ ?_⟩
    exact Layout.forwards_of_face? (hp.face q g hg) hforwards
  have htraced : ∀ h f' p, net'.Holds h f' → f'.parent = some p → net'.Traces (fun _ ↦ True) p :=
    fun h f' p hf' hfp ↦ (hparent h f' p hf' hfp).imp fun _ _ ↦ trivial
  refine ⟨hp.valid, hp.roster, hparent, fun h f' c hf' hc ↦ ?_, fun h f' n hf' hn hkind ↦ ?_,
    fun h f' place hf' hX hloop hplace hm ↦ ?_, fun h f' hf' ↦ ?_⟩
  · obtain ⟨f, hf, -, -, hchildren⟩ := hp.old h f' hf'
    exact hp.traces (hK.children h f c hf (hchildren hc)) fun _ _ _ _ hway _ hg ↦
      (Flow.parent_eq hway).trans hg
  · obtain ⟨f, hf, hway, -⟩ := hp.old h f' hf'
    rw [Flow.node_eq hway] at hn
    obtain ⟨m, hm, hkind⟩ := Layout.source_of_face? (hp.face h f hf) hn hkind
    exact (Flow.parent_eq hway).trans (hK.source h f m hf hm hkind)
  · obtain ⟨f, hf, hway, hloop', -⟩ := hp.old h f' hf'
    rw [Flow.node_eq hway] at hplace
    refine hK.apart h f place hf hX (hloop'.symm.trans hloop)
      (Layout.loopKey?_of_face? (hp.face h f hf) hplace) ?_
    exact Flow.parent_eq hway ▸ hp.meets htraced (fun p hfp ↦ htraced h f' p hf' hfp) hm
  · obtain ⟨f, hf, -⟩ := hp.old h f' hf'
    obtain ⟨e, he⟩ := hK.line h f hf
    exact hp.shorter hK he hf'

/-- **Only the layout has changed**, and not where flows are. -/
theorem of_eq (hK : Kin net X) (hflows : net'.flows = net.flows)
    (hroster : net'.roster = net.roster)
    (hface : ∀ key, net.roster key ≠ [] → net'.layout.face? key = net.layout.face? key) :
    Sheds net net' := by
  have hholds : ∀ h f, net'.Holds h f ↔ net.Holds h f := fun h f ↦ by
    rw [Network.Holds, Network.Holds, hflows, hroster]
  refine ⟨fun h hp ↦ hflows ▸ hp, fun h f hf ↦ .inr ⟨f, (hholds h f).2 hf, rfl, rfl⟩,
    hflows ▸ hK.valid, fun key h hh ↦ ?_, fun h f hf ↦ ⟨f, (hholds h f).1 hf, rfl, rfl, fun _ ↦ id⟩,
    fun h f hf ↦ hface _ (List.ne_nil_of_mem hf.2)⟩
  rw [hflows]
  exact hK.roster key h (hroster ▸ hh)

end Sheds

/-- A computation that prunes brings no flow. -/
theorem Prunes.sheds (hp : Prunes d net net') : Sheds net net' :=
  { hp with face := fun _ _ _ ↦ by rw [hp.layout] }

/-- **Pruning keeps what is known of the flows that are listed.** -/
theorem Prunes.kin (hp : Prunes d net net') (hK : Kin net X) : Kin net' X := hp.sheds.kin hK

end HeaderFlow
