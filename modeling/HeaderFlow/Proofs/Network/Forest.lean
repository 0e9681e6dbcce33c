import HeaderFlow.Proofs.Network.Layout
import Mathlib.Data.List.Nodup
import Mathlib.Data.List.Perm.Subperm
import Mathlib.Data.Set.Insert

/-!
# The forest of flows

A flow points to the flow it came from, and is listed with the flows that came from it. `Forest`
says that the two agree, that every flow came by a wire of the layout, and that going up from any
flow ends at a source. Flows that are about to be listed, or are no longer, are the *orphans*, which
the forest has as a parameter.

How far up the source is (`Depth`) orders all the recursions. **A change at a flow touches no flow
that is nearer to a source** (`Spares`), and a flow never changes its place nor its way there
(`Stable`), so handles that were read off earlier stay good.

## Relations of two arenas

Propagation changes the arena of flows many times between the point where a handle is read and the
point where it is used. What is then known of it is said by relations that are reflexive and
transitive:

* `Stable F F'`: no handle comes to name another flow. It is past by then, or names a flow with the
  same way.
* `Spares d F F'`: flows nearer to a source than `d` are as they were, up to what came from them.
* `SameRoots K F F'`: the roots are as they were, and none is new.
* `Carries P F F'`: handles with `P` name flows with the same way, and so do all above them. Depths
  and places that are met on the way up are carried over by it (`Depth.transport`,
  `Meets.transport`).

## Single steps

`Replaces` says that one flow was replaced by another with the same way, which is what most steps
do. A forest may also get a new flow (`Forest.insert`), which is an orphan at first, and lose an
orphan on which nothing hangs (`Forest.lack`).
-/

namespace HeaderFlow

namespace Flow

variable {f g : Flow}

/-- Where the flow is and how it came there, which it keeps for as long as it lives. -/
def way (f : Flow) : NodeKey × Handle × Port × Option Handle × Option Handle :=
  (f.node, f.source, f.port, f.pipe, f.parent)

/-- Two flows have the same way if the five parts of it agree. -/
theorem way_eq_iff : g.way = f.way ↔ g.node = f.node ∧ g.source = f.source ∧ g.port = f.port ∧
    g.pipe = f.pipe ∧ g.parent = f.parent := by
  simp [way]

theorem node_eq (h : g.way = f.way) : g.node = f.node := (way_eq_iff.1 h).1

theorem source_eq (h : g.way = f.way) : g.source = f.source := (way_eq_iff.1 h).2.1

theorem port_eq (h : g.way = f.way) : g.port = f.port := (way_eq_iff.1 h).2.2.1

theorem pipe_eq (h : g.way = f.way) : g.pipe = f.pipe := (way_eq_iff.1 h).2.2.2.1

theorem parent_eq (h : g.way = f.way) : g.parent = f.parent := (way_eq_iff.1 h).2.2.2.2

/-- The flow may leave by the port: **not by that by which it came in**. -/
def Leaves (f : Flow) (q : Port) : Prop := f.parent = none ∨ q ≠ f.port

/-- By which ports a flow may leave depends on its way. -/
theorem leaves_iff {q : Port} (h : g.way = f.way) : g.Leaves q ↔ f.Leaves q := by
  rw [Leaves, Leaves, parent_eq h, port_eq h]

/-- The two flows differ at most in what came from them. -/
def Alike (f g : Flow) : Prop := ∃ cs, g = { f with children := cs }

theorem Alike.refl (f : Flow) : f.Alike f := ⟨f.children, rfl⟩

theorem Alike.trans {k : Flow} (h₁ : f.Alike g) (h₂ : g.Alike k) : f.Alike k := by
  obtain ⟨cs, rfl⟩ := h₁
  obtain ⟨ds, rfl⟩ := h₂
  exact ⟨ds, rfl⟩

/-- Flows that are alike have the same way. -/
theorem Alike.way (h : f.Alike g) : g.way = f.way := by
  obtain ⟨cs, rfl⟩ := h
  rfl

theorem Alike.processed (h : f.Alike g) : g.processed = f.processed := by
  obtain ⟨cs, rfl⟩ := h
  rfl

end Flow

variable {L : Layout} {F F' F'' : Arena Flow} {h g c : Handle} {f f' : Flow} {d e : Nat}
  {O O' : Set Handle}

/-- Handles with the property name flows with the same way in both arenas, and so on upwards. -/
def Carries (P : Handle → Prop) (F F' : Arena Flow) : Prop :=
  ∀ g f, P g → F.find? g = some f →
    (∃ f', F'.find? g = some f' ∧ f'.way = f.way) ∧ ∀ p, f.parent = some p → P p

/-! ### Depth

The depth of a flow is the number of steps up to a flow without a parent. It exists for every flow
of a forest, and is unique, so it can be used as a measure. -/

/-- The flow is `d` steps away from a flow that came from nowhere. -/
inductive Depth (F : Arena Flow) : Handle → Nat → Prop
  | root {h : Handle} {f : Flow} : F.find? h = some f → f.parent = none → Depth F h 0
  | step {h p : Handle} {f : Flow} {d : Nat} :
    F.find? h = some f → f.parent = some p → Depth F p d → Depth F h (d + 1)

namespace Depth

/-- A flow with a depth is there. -/
theorem live (hd : Depth F h d) : ∃ f, F.find? h = some f := by
  cases hd with
  | root hf => exact ⟨_, hf⟩
  | step hf => exact ⟨_, hf⟩

/-- A flow has one depth, since it came from one flow at most. -/
theorem unique (hd : Depth F h d) (he : Depth F h e) : d = e := by
  induction hd generalizing e with
  | root hf hp =>
    cases he with
    | root => rfl
    | step hf' hp' =>
      rw [hf] at hf'
      obtain rfl := Option.some.inj hf'
      exact absurd (hp.symm.trans hp') (by simp)
  | step hf hp _ ih =>
    cases he with
    | root hf' hp' =>
      rw [hf] at hf'
      obtain rfl := Option.some.inj hf'
      exact absurd (hp'.symm.trans hp) (by simp)
    | step hf' hp' hd' =>
      rw [hf] at hf'
      obtain rfl := Option.some.inj hf'
      rw [hp] at hp'
      obtain rfl := Option.some.inj hp'
      rw [ih hd']

/-- The flow that a flow came from is one step nearer. -/
theorem parent {p : Handle} (hd : Depth F h d) (hf : F.find? h = some f)
    (hp : f.parent = some p) : ∃ e, d = e + 1 ∧ Depth F p e := by
  cases hd with
  | root hf' hp' =>
    rw [hf] at hf'
    obtain rfl := Option.some.inj hf'
    exact absurd (hp'.symm.trans hp) (by simp)
  | step hf' hp' hd =>
    rw [hf] at hf'
    obtain rfl := Option.some.inj hf'
    rw [hp] at hp'
    obtain rfl := Option.some.inj hp'
    exact ⟨_, rfl, hd⟩

/-- **A depth is carried over**, with the ways of all flows above. -/
theorem transport {P : Handle → Prop} (hP : Carries P F F') (hh : P h) (hd : Depth F h d) :
    Depth F' h d := by
  induction hd with
  | root hf hp =>
    obtain ⟨⟨f', hf', hway⟩, -⟩ := hP _ _ hh hf
    exact .root hf' ((Flow.parent_eq hway).trans hp)
  | step hf hp _ ih =>
    obtain ⟨⟨f', hf', hway⟩, hup⟩ := hP _ _ hh hf
    exact .step hf' ((Flow.parent_eq hway).trans hp) (ih (hup _ hp))

/-- The flows on the way up are all different. -/
theorem exists_chain (hd : Depth F h d) :
    ∃ l : List Handle, l.Nodup ∧ l.length = d + 1 ∧ ∀ g ∈ l, ∃ e ≤ d, Depth F g e := by
  induction hd with
  | @root h f hf hp =>
    refine ⟨[h], by simp, rfl, fun g hg ↦ ⟨0, Nat.le_refl 0, ?_⟩⟩
    rw [List.mem_singleton.1 hg]
    exact .root hf hp
  | @step h p f d hf hp hd ih =>
    obtain ⟨l, hnodup, hlen, hl⟩ := ih
    refine ⟨h :: l, List.nodup_cons.2 ⟨fun hmem ↦ ?_, hnodup⟩, by simp [hlen], fun g hg ↦ ?_⟩
    · obtain ⟨e, he, hde⟩ := hl h hmem
      have := hde.unique (.step hf hp hd)
      omega
    · rcases List.mem_cons.1 hg with rfl | hg
      · exact ⟨d + 1, Nat.le_refl _, .step hf hp hd⟩
      · obtain ⟨e, he, hde⟩ := hl g hg
        exact ⟨e, by omega, hde⟩

/-- **Depth is less than the number of slots.** -/
theorem lt_size (hd : Depth F h d) : d < F.slots.size := by
  obtain ⟨l, hnodup, hlen, hl⟩ := hd.exists_chain
  have hle := Arena.length_le_of_live hnodup fun g hg ↦ (hl g hg).elim fun e he ↦ he.2.live
  omega

end Depth

/-! ### Handles that stay good

Four ways to say that one arena came from another by steps that are harmless in some respect. Each
of them is kept by the elementary steps under a condition that is easily checked, and is
transitive. -/

/-- No handle comes to name another flow: it is past, or names one with the same way. No flow that
came from nowhere is new. -/
structure Stable (F F' : Arena Flow) : Prop where
  past : ∀ h, F.Past h → F'.Past h
  live : ∀ h f, F.find? h = some f → F'.Past h ∨ ∃ f', F'.find? h = some f' ∧ f'.way = f.way
  root : ∀ h f', F'.find? h = some f' → f'.parent = none → ∃ f, F.find? h = some f

namespace Stable

/-- Nothing changed. -/
theorem refl (F : Arena Flow) : Stable F F :=
  ⟨fun _ hp ↦ hp, fun _ f hf ↦ .inr ⟨f, hf, rfl⟩, fun _ f hf _ ↦ ⟨f, hf⟩⟩

/-- What a handle names later has the way of what it named before. -/
theorem way (hs : Stable F F') (hf : F.find? h = some f) (hf' : F'.find? h = some f') :
    f'.way = f.way := by
  rcases hs.live h f hf with hp | ⟨g, hg, hway⟩
  · rw [hp.find?_eq_none] at hf'
    exact absurd hf' (by simp)
  · rw [hg] at hf'
    exact Option.some.inj hf' ▸ hway

theorem trans (h₁ : Stable F F') (h₂ : Stable F' F'') : Stable F F'' where
  past h hp := h₂.past h (h₁.past h hp)
  live h f hf := by
    rcases h₁.live h f hf with hp | ⟨f', hf', hway⟩
    · exact .inl (h₂.past h hp)
    · rcases h₂.live h f' hf' with hp | ⟨f'', hf'', hway'⟩
      · exact .inl hp
      · exact .inr ⟨f'', hf'', hway'.trans hway⟩
  root h f'' hf'' hp := by
    obtain ⟨f', hf'⟩ := h₂.root h f'' hf'' hp
    exact h₁.root h f' hf' ((Flow.parent_eq (h₂.way hf' hf'')).symm.trans hp)

/-- A change that keeps the way of a flow. -/
theorem modify {k : Flow → Flow} (hk : ∀ f, (k f).way = f.way) : Stable F (F.modify h k) where
  past g hp := Arena.past_modify.2 hp
  live g f hf := by
    right
    rw [Arena.find?_modify]
    split
    · rename_i he
      subst he
      exact ⟨k f, by rw [hf]; rfl, hk f⟩
    · exact ⟨f, hf, rfl⟩
  root g f' hf' _ := by
    rw [Arena.find?_modify] at hf'
    split at hf'
    · rename_i he
      obtain ⟨f, hf, -⟩ := Option.map_eq_some_iff.1 hf'
      exact ⟨f, he ▸ hf⟩
    · exact ⟨f', hf'⟩

/-- A new handle is not in use. The flow must not be a root, or a root would be new. -/
theorem insert (hF : F.Valid) (hparent : f.parent ≠ none) : Stable F (F.insert f) where
  past _ hp := hp.insert
  live _ f hf := .inr ⟨f, Arena.find?_insert_of_some hF hf, rfl⟩
  root g f' hf' hp := by
    rw [Arena.find?_insert hF] at hf'
    split at hf'
    · exact absurd (Option.some.inj hf' ▸ hp) hparent
    · exact ⟨f', hf'⟩

/-- A flow that goes leaves its handle past. -/
theorem erase (F : Arena Flow) (h : Handle) : Stable F (F.erase h) where
  past g hp := hp.erase
  live g f hf := by
    by_cases he : g = h
    · subst he
      exact .inl (Arena.past_erase hf)
    · exact .inr ⟨f, by rw [Arena.find?_erase, if_neg he, hf], rfl⟩
  root g f' hf' _ := by
    rw [Arena.find?_erase] at hf'
    split at hf'
    · exact absurd hf' (by simp)
    · exact ⟨f', hf'⟩

end Stable

/-- The handle names a flow with the property, or did so once. -/
def Names (F : Arena Flow) (P : Flow → Prop) (h : Handle) : Prop :=
  F.Past h ∨ ∃ f, F.find? h = some f ∧ P f

/-- **What was read off before a computation is good afterwards**, as far as ways are concerned. -/
theorem Names.stable {P : Flow → Prop} (hn : Names F P h) (hs : Stable F F')
    (hP : ∀ f f', f'.way = f.way → P f → P f') : Names F' P h := by
  rcases hn with hp | ⟨f, hf, hPf⟩
  · exact .inl (hs.past h hp)
  · rcases hs.live h f hf with hp | ⟨f', hf', hway⟩
    · exact .inl hp
    · exact .inr ⟨f', hf', hP f f' hway hPf⟩

/-- A flow that is still there has the property. -/
theorem Names.live {P : Flow → Prop} (hn : Names F P h) (hf : F.find? h = some f) : P f := by
  rcases hn with hp | ⟨f', hf', hPf⟩
  · exact absurd (hp.find?_eq_none.symm.trans hf) (by simp)
  · exact Option.some.inj (hf.symm.trans hf') ▸ hPf

/-- Flows nearer to a source than `d` are as they were, up to what came from them. -/
def Spares (d : Nat) (F F' : Arena Flow) : Prop :=
  ∀ h e f, Depth F h e → e < d → F.find? h = some f → ∃ f', F'.find? h = some f' ∧ f.Alike f'

namespace Spares

theorem refl (d : Nat) (F : Arena Flow) : Spares d F F := fun _ _ f _ _ hf ↦ ⟨f, hf, .refl f⟩

/-- What spares more flows spares fewer. -/
theorem mono (hs : Spares d F F') (hle : e ≤ d) : Spares e F F' := fun h k f hd hlt hf ↦
  hs h k f hd (by omega) hf

/-- A flow that is spared has kept its depth. -/
theorem depth (hs : Spares d F F') (hd : Depth F h e) (hlt : e < d) : Depth F' h e := by
  refine hd.transport (P := fun g ↦ ∃ k < d, Depth F g k) (fun g f hg hf ↦ ?_) ⟨e, hlt, hd⟩
  obtain ⟨k, hk, hdk⟩ := hg
  obtain ⟨f', hf', halike⟩ := hs g k f hdk hk hf
  refine ⟨⟨f', hf', halike.way⟩, fun p hp ↦ ?_⟩
  obtain ⟨j, rfl, hdp⟩ := hdk.parent hf hp
  exact ⟨j, by omega, hdp⟩

theorem trans (h₁ : Spares d F F') (h₂ : Spares d F' F'') : Spares d F F'' := by
  intro h e f hd hlt hf
  obtain ⟨f', hf', ha⟩ := h₁ h e f hd hlt hf
  obtain ⟨f'', hf'', ha'⟩ := h₂ h e f' (h₁.depth hd hlt) hlt hf'
  exact ⟨f'', hf'', ha.trans ha'⟩

/-- A change of one flow spares those of smaller depth. -/
theorem modify {k : Flow → Flow} (hd : Depth F h d) : Spares d F (F.modify h k) := by
  intro g e f he hlt hf
  have hne : g ≠ h := by
    rintro rfl
    have := he.unique hd
    omega
  exact ⟨f, by rw [Arena.find?_modify_of_ne hne, hf], .refl f⟩

/-- A change of what came from a flow spares all. -/
theorem modify_children {k : Flow → Flow} (hk : ∀ f : Flow, f.Alike (k f)) :
    Spares d F (F.modify h k) := by
  intro g e f _ _ hf
  rw [Arena.find?_modify]
  split
  · rename_i he
    subst he
    exact ⟨k f, by rw [hf]; rfl, hk f⟩
  · exact ⟨f, hf, .refl f⟩

theorem insert (hF : F.Valid) (f : Flow) : Spares d F (F.insert f) := fun _ _ g _ _ hg ↦
  ⟨g, Arena.find?_insert_of_some hF hg, .refl g⟩

end Spares

/-- Roots are as they were, up to what came from them. None is new, and of those at nodes with the
property none is gone. -/
structure SameRoots (K : NodeKey → Prop) (F F' : Arena Flow) : Prop where
  old : ∀ h f', F'.find? h = some f' → f'.parent = none → ∃ f, F.find? h = some f ∧ f.Alike f'
  kept : ∀ h f, F.find? h = some f → f.parent = none → K f.node →
    ∃ f', F'.find? h = some f' ∧ f.Alike f'

namespace SameRoots

variable {K K' : NodeKey → Prop}

theorem refl (K : NodeKey → Prop) (F : Arena Flow) : SameRoots K F F :=
  ⟨fun _ f hf _ ↦ ⟨f, hf, .refl f⟩, fun _ f hf _ _ ↦ ⟨f, hf, .refl f⟩⟩

theorem of_eq (hF : F' = F) : SameRoots K F F' := hF ▸ .refl K F

theorem trans (h₁ : SameRoots K F F') (h₂ : SameRoots K F' F'') : SameRoots K F F'' where
  old h f'' hf'' hp := by
    obtain ⟨f', hf', ha'⟩ := h₂.old h f'' hf'' hp
    obtain ⟨f, hf, ha⟩ := h₁.old h f' hf' ((Flow.parent_eq ha'.way).symm.trans hp)
    exact ⟨f, hf, ha.trans ha'⟩
  kept h f hf hp hK := by
    obtain ⟨f', hf', ha⟩ := h₁.kept h f hf hp hK
    obtain ⟨f'', hf'', ha'⟩ := h₂.kept h f' hf' ((Flow.parent_eq ha.way).trans hp)
      (Flow.node_eq ha.way ▸ hK)
    exact ⟨f'', hf'', ha.trans ha'⟩

/-- What spares everything at depth zero leaves the roots alone. -/
theorem of_spares (hstable : Stable F F') (hspares : Spares 1 F F') : SameRoots K F F' where
  old h f' hf' hp := by
    obtain ⟨f, hf⟩ := hstable.root h f' hf' hp
    have hroot := (Flow.parent_eq (hstable.way hf hf')).symm.trans hp
    obtain ⟨f'', hf'', ha⟩ := hspares h 0 f (.root hf hroot) Nat.one_pos hf
    obtain rfl := Option.some.inj (hf'.symm.trans hf'')
    exact ⟨f, hf, ha⟩
  kept h f hf hp _ := hspares h 0 f (.root hf hp) Nat.one_pos hf

end SameRoots

/-! ### The forest

What is known of every flow, one field for each fact. The orphans are left out of the one fact that
does not hold of them, that the parent lists its child. -/

/-- Going up from this flow, a rule is met that counts as the place `key`. -/
inductive Meets (L : Layout) (F : Arena Flow) (key : UInt64) : Option Handle → Prop
  | here {h : Handle} {f : Flow} :
    F.find? h = some f → L.loopKey? f.node = some key → Meets L F key (some h)
  | above {h : Handle} {f : Flow} :
    F.find? h = some f → Meets L F key f.parent → Meets L F key (some h)

/-- **Places that are met above are carried over**, with the ways of all flows above. -/
theorem Meets.transport {P : Handle → Prop} {key : UInt64} {o : Option Handle}
    (hP : Carries P F F') (ho : ∀ h, o = some h → P h) (hm : Meets L F key o) :
    Meets L F' key o := by
  induction hm with
  | here hf hkey =>
    obtain ⟨⟨f', hf', hway⟩, -⟩ := hP _ _ (ho _ rfl) hf
    exact .here hf' (Flow.node_eq hway ▸ hkey)
  | above hf _ ih =>
    obtain ⟨⟨f', hf', hway⟩, hup⟩ := hP _ _ (ho _ rfl) hf
    exact .above hf' (Flow.parent_eq hway ▸ ih hup)

/-- Flows came from where they say, by wires of the layout, and are listed there unless they are
orphans. -/
structure Forest (L : Layout) (F : Arena Flow) (O : Set Handle) : Prop where
  depth : ∀ h f, F.find? h = some f → ∃ d, Depth F h d
  children : ∀ h f c, F.find? h = some f → c ∈ f.children →
    ∃ g, F.find? c = some g ∧ g.parent = some h
  listed : ∀ c g h f, F.find? c = some g → c ∉ O → g.parent = some h → F.find? h = some f →
    c ∈ f.children
  root : ∀ h f, F.find? h = some f → f.parent = none →
    f.source = h ∧ f.pipe = none ∧ ∃ n, L.core? f.node = some n ∧ n.kind = .source
  came : ∀ c g h f, F.find? c = some g → g.parent = some h → F.find? h = some f →
    g.source = f.source ∧ ∃ fwd w, g.pipe = some fwd ∧ L.Runs fwd w ∧ w.sender = f.node ∧
      w.receiver = g.node ∧ w.inPort = g.port
  looped : ∀ h f, F.find? h = some f → f.looped = true →
    ∃ key, L.loopKey? f.node = some key ∧ Meets L F key f.parent
  leaves : ∀ c g h f fwd w, F.find? c = some g → g.parent = some h → F.find? h = some f →
    g.pipe = some fwd → L.Runs fwd w → f.Leaves w.outPort
  nodup : ∀ h f, F.find? h = some f → f.children.Nodup

namespace Forest

/-- The flow that a flow came from is there, even if the flow is an orphan. -/
theorem parent_live {p : Handle} (hF : Forest L F O) (hf : F.find? h = some f)
    (hp : f.parent = some p) : ∃ g, F.find? p = some g := by
  obtain ⟨d, hd⟩ := hF.depth h f hf
  obtain ⟨e, -, he⟩ := hd.parent hf hp
  exact he.live

theorem mono (hF : Forest L F O) (hO : O ⊆ O') : Forest L F O' :=
  { hF with listed := fun c g h f hc hcO ↦ hF.listed c g h f hc fun hmem ↦ hcO (hO hmem) }

/-- Orphans that do not live are none. -/
theorem strengthen (hF : Forest L F O) (hO : ∀ h ∈ O, (∃ f, F.find? h = some f) → h ∈ O') :
    Forest L F O' :=
  { hF with listed := fun c g h f hc hcO ↦ hF.listed c g h f hc fun hmem ↦ hcO (hO c hmem ⟨g, hc⟩) }

/-- **The root of a flow's tree is the flow that it names as its source.** -/
theorem rooted (hF : Forest L F O) (hf : F.find? h = some f) :
    ∃ r, F.find? f.source = some r ∧ r.parent = none := by
  obtain ⟨d, hd⟩ := hF.depth h f hf
  induction hd generalizing f with
  | root hf' hp =>
    rw [hf] at hf'
    obtain rfl := Option.some.inj hf'
    obtain ⟨hsource, -⟩ := hF.root _ _ hf hp
    exact ⟨f, hsource ▸ hf, hp⟩
  | step hf' hp hd ih =>
    rw [hf] at hf'
    obtain rfl := Option.some.inj hf'
    obtain ⟨g, hg⟩ := hd.live
    obtain ⟨hsource, -⟩ := hF.came _ _ _ _ hf hp hg
    rw [hsource]
    exact ih hg

/-- The node of a flow that came by a wire. -/
theorem wire {p : Handle} (hF : Forest L F O) (hf : F.find? h = some f)
    (hp : f.parent = some p) :
    ∃ g fwd w, F.find? p = some g ∧ f.pipe = some fwd ∧ L.Runs fwd w ∧ w.sender = g.node ∧
      w.receiver = f.node ∧ w.inPort = f.port := by
  obtain ⟨g, hg⟩ := hF.parent_live hf hp
  obtain ⟨-, fwd, w, hpipe, hw, hs, hr, hport⟩ := hF.came h f p g hf hp hg
  exact ⟨g, fwd, w, hg, hpipe, hw, hs, hr, hport⟩

/-- The node of a flow is there. -/
theorem core (hL : L.WellFormed) (hF : Forest L F O) (hf : F.find? h = some f) :
    ∃ n, L.core? f.node = some n := by
  cases hp : f.parent with
  | none =>
    obtain ⟨-, -, n, hn, -⟩ := hF.root h f hf hp
    exact ⟨n, hn⟩
  | some p =>
    obtain ⟨g, fwd, w, -, -, hw, -, hr, -⟩ := hF.wire hf hp
    obtain ⟨n, m, q, -, hm, -⟩ := hL.ends hw
    exact ⟨m, hr ▸ hm⟩

/-- A flow that came from another is not at a source, and came in by a port of its node. -/
theorem entered {p : Handle} (hL : L.WellFormed) (hF : Forest L F O) (hf : F.find? h = some f)
    (hp : f.parent = some p) :
    ∃ n, L.core? f.node = some n ∧ n.kind ≠ .source ∧ f.port ∈ n.inPorts.toList := by
  obtain ⟨g, fwd, w, -, -, hw, -, hr, hport⟩ := hF.wire hf hp
  obtain ⟨n, m, q, -, hm, -, -, hin, -⟩ := hL.ends hw
  refine ⟨m, hr ▸ hm, fun hkind ↦ ?_, hport ▸ hin⟩
  have hproper := hL.proper m (Layout.mem_of_core? hm)
  rw [Core.Proper, hkind] at hproper
  exact absurd hin (hproper.1 ▸ List.not_mem_nil)

/-- **Flows at sources are roots, and the others are not.** -/
theorem isRoot_iff (hL : L.WellFormed) (hF : Forest L F O) (hf : F.find? h = some f) {n : Core}
    (hn : L.core? f.node = some n) : f.parent = none ↔ n.kind = .source := by
  constructor
  · intro hp
    obtain ⟨-, -, n', hn', hkind⟩ := hF.root h f hf hp
    rw [hn] at hn'
    exact Option.some.inj hn' ▸ hkind
  · intro hkind
    cases hp : f.parent with
    | none => rfl
    | some p =>
      obtain ⟨n', hn', hne, -⟩ := hF.entered hL hf hp
      rw [hn] at hn'
      exact absurd hkind (Option.some.inj hn' ▸ hne)

/-! ### Changing the forest

An arena that differs from another one in a single flow is a forest if that flow still fits. The
lemmas say what has to be checked, and which depths stay. -/

/-- **A forest may lose flows and change what hangs on the others**, as long as what is left keeps
the flow it came from. -/
theorem restrict (hF : Forest L F O)
    (hold : ∀ g f', F'.find? g = some f' → ∃ f, F.find? g = some f ∧ f'.way = f.way)
    (hup : ∀ g f' p, F'.find? g = some f' → f'.parent = some p → ∃ f, F'.find? p = some f)
    (hchildren : ∀ h f' c, F'.find? h = some f' → c ∈ f'.children →
      ∃ g, F'.find? c = some g ∧ g.parent = some h)
    (hlisted : ∀ c g h f', F'.find? c = some g → c ∉ O' → g.parent = some h →
      F'.find? h = some f' → c ∈ f'.children)
    (hlooped : ∀ h f', F'.find? h = some f' → f'.looped = true →
      ∃ key, L.loopKey? f'.node = some key ∧ Meets L F key f'.parent)
    (hnodup : ∀ h f', F'.find? h = some f' → f'.children.Nodup) :
    Forest L F' O' := by
  have hcarries : Carries (fun g ↦ ∃ f', F'.find? g = some f') F F' := by
    rintro g f ⟨f', hf'⟩ hf
    obtain ⟨f₀, hf₀, hway⟩ := hold g f' hf'
    rw [hf] at hf₀
    obtain rfl := Option.some.inj hf₀
    exact ⟨⟨f', hf', hway⟩, fun p hp ↦ hup g f' p hf' ((Flow.parent_eq hway).trans hp)⟩
  refine ⟨fun h f' hf' ↦ ?_, hchildren, hlisted, fun h f' hf' hp ↦ ?_,
    fun c g' h f' hg' hp hf' ↦ ?_, fun h f' hf' hl ↦ ?_,
    fun c g' h f' fwd w hg' hp hf' hpipe hw ↦ ?_, hnodup⟩
  · obtain ⟨f, hf, -⟩ := hold h f' hf'
    obtain ⟨d, hd⟩ := hF.depth h f hf
    exact ⟨d, hd.transport hcarries ⟨f', hf'⟩⟩
  · obtain ⟨f, hf, hway⟩ := hold h f' hf'
    obtain ⟨hsource, hpipe, n, hn, hkind⟩ := hF.root h f hf ((Flow.parent_eq hway).symm.trans hp)
    exact ⟨(Flow.source_eq hway).trans hsource, (Flow.pipe_eq hway).trans hpipe, n,
      Flow.node_eq hway ▸ hn, hkind⟩
  · obtain ⟨g, hg, hwayg⟩ := hold c g' hg'
    obtain ⟨f, hf, hwayf⟩ := hold h f' hf'
    obtain ⟨hsource, fwd, w, hpipe, hw, hs, hr, hport⟩ :=
      hF.came c g h f hg ((Flow.parent_eq hwayg).symm.trans hp) hf
    rw [Flow.source_eq hwayg, Flow.source_eq hwayf, Flow.pipe_eq hwayg, Flow.node_eq hwayg,
      Flow.node_eq hwayf, Flow.port_eq hwayg]
    exact ⟨hsource, fwd, w, hpipe, hw, hs, hr, hport⟩
  · obtain ⟨key, hkey, hmeets⟩ := hlooped h f' hf' hl
    exact ⟨key, hkey, hmeets.transport hcarries fun p hp ↦ hup h f' p hf' hp⟩
  · obtain ⟨g, hg, hwayg⟩ := hold c g' hg'
    obtain ⟨f, hf, hwayf⟩ := hold h f' hf'
    exact (Flow.leaves_iff hwayf).2 (hF.leaves c g h f fwd w hg
      ((Flow.parent_eq hwayg).symm.trans hp) hf ((Flow.pipe_eq hwayg).symm.trans hpipe) hw)

end Forest

/-- The arena `F'` is `F` with the flow `f` at `h` replaced by `f'`, whose way is the same. -/
structure Replaces (F F' : Arena Flow) (h : Handle) (f f' : Flow) : Prop where
  before : F.find? h = some f
  after : F'.find? h = some f'
  other : ∀ g, g ≠ h → F'.find? g = F.find? g
  way : f'.way = f.way

namespace Replaces

theorem modify {k : Flow → Flow} (hf : F.find? h = some f) (hk : (k f).way = f.way) :
    Replaces F (F.modify h k) h f (k f) :=
  ⟨hf, Arena.find?_modify_self hf, fun _ hg ↦ Arena.find?_modify_of_ne hg, hk⟩

/-- A flow that is there is the new one, or it was there before. -/
theorem of_find? {k : Flow} (hr : Replaces F F' h f f') (hk : F'.find? g = some k) :
    g = h ∧ k = f' ∨ g ≠ h ∧ F.find? g = some k := by
  by_cases hg : g = h
  · exact .inl ⟨hg, Option.some.inj (hk.symm.trans (hg ▸ hr.after))⟩
  · exact .inr ⟨hg, (hr.other g hg).symm.trans hk⟩

/-- A flow that is there was there before, with the same way, and is the same unless it is the one
that was replaced. -/
theorem old {k' : Flow} (hr : Replaces F F' h f f') (hk' : F'.find? g = some k') :
    ∃ k, F.find? g = some k ∧ k'.way = k.way ∧ (g ≠ h → k' = k) := by
  rcases hr.of_find? hk' with ⟨rfl, rfl⟩ | ⟨-, hk⟩
  · exact ⟨f, hr.before, hr.way, fun hne ↦ absurd rfl hne⟩
  · exact ⟨k', hk, rfl, fun _ ↦ rfl⟩

/-- A flow that was there is there, with the same way. -/
theorem new {k : Flow} (hr : Replaces F F' h f f') (hk : F.find? g = some k) :
    ∃ k', F'.find? g = some k' ∧ k'.way = k.way ∧ (g ≠ h → k' = k) := by
  by_cases hg : g = h
  · subst hg
    rw [hr.before] at hk
    exact ⟨f', hr.after, Option.some.inj hk ▸ hr.way, fun hne ↦ absurd rfl hne⟩
  · exact ⟨k, (hr.other g hg).trans hk, rfl, fun _ ↦ rfl⟩

/-- A flow that is replaced may hang other flows on itself. -/
theorem forest (hr : Replaces F F' h f f') (hF : Forest L F O)
    (hchildren : ∀ c ∈ f'.children, ∃ g, F.find? c = some g ∧ g.parent = some h)
    (hlisted : ∀ c g, F.find? c = some g → c ∉ O' → g.parent = some h → c ∈ f'.children)
    (hO : ∀ c g p, F.find? c = some g → g.parent = some p → p ≠ h → c ∈ O → c ∈ O')
    (hlooped : f'.looped = true → ∃ key, L.loopKey? f.node = some key ∧ Meets L F key f.parent)
    (hnodup : f'.children.Nodup) : Forest L F' O' := by
  refine hF.restrict (fun g k' hk' ↦ ?_) (fun g k' p hk' hp ↦ ?_) (fun g k' c hk' hc ↦ ?_)
    (fun c k' g l' hk' hcO hp hl' ↦ ?_) (fun g k' hk' hl ↦ ?_) fun g k' hk' ↦ ?_
  · obtain ⟨k, hk, hway, -⟩ := hr.old hk'
    exact ⟨k, hk, hway⟩
  · obtain ⟨k, hk, hway, -⟩ := hr.old hk'
    obtain ⟨l, hl⟩ := hF.parent_live hk ((Flow.parent_eq hway).symm.trans hp)
    obtain ⟨l', hl', -⟩ := hr.new hl
    exact ⟨l', hl'⟩
  · have hthere : ∃ l, F.find? c = some l ∧ l.parent = some g := by
      rcases hr.of_find? hk' with ⟨rfl, rfl⟩ | ⟨-, hk⟩
      · exact hchildren c hc
      · exact hF.children g k' c hk hc
    obtain ⟨l, hl, hp⟩ := hthere
    obtain ⟨l', hl', hway, -⟩ := hr.new hl
    exact ⟨l', hl', (Flow.parent_eq hway).trans hp⟩
  · obtain ⟨k, hk, hway, -⟩ := hr.old hk'
    have hp' := (Flow.parent_eq hway).symm.trans hp
    rcases hr.of_find? hl' with ⟨rfl, rfl⟩ | ⟨hg, hl⟩
    · exact hlisted c k hk hcO hp'
    · exact hF.listed c k g l' hk (fun hmem ↦ hcO (hO c k g hk hp' hg hmem)) hp' hl
  · rcases hr.of_find? hk' with ⟨rfl, rfl⟩ | ⟨-, hk⟩
    · rw [Flow.node_eq hr.way, Flow.parent_eq hr.way]
      exact hlooped hl
    · exact hF.looped g k' hk hl
  · rcases hr.of_find? hk' with ⟨rfl, rfl⟩ | ⟨-, hk⟩
    · exact hnodup
    · exact hF.nodup g k' hk

/-- **A change of the headers of a flow leaves the forest as it is.** -/
theorem forest_of_eq (hr : Replaces F F' h f f') (hF : Forest L F O)
    (hchildren : f'.children = f.children) (hlooped : f'.looped = f.looped) : Forest L F' O := by
  refine hr.forest hF (fun c hc ↦ hF.children h f c hr.before (hchildren ▸ hc))
    (fun c g hg hcO hp ↦ hchildren ▸ hF.listed c g h f hg hcO hp hr.before)
    (fun _ _ _ _ _ _ hmem ↦ hmem) (fun hl ↦ hF.looped h f hr.before (hlooped ▸ hl))
    (hchildren ▸ hF.nodup h f hr.before)

theorem depth (hr : Replaces F F' h f f') : Depth F' g d ↔ Depth F g d := by
  constructor
  · refine Depth.transport (P := fun _ ↦ True) (fun k l' _ hl' ↦ ?_) trivial
    obtain ⟨l, hl, hway, -⟩ := hr.old hl'
    exact ⟨⟨l, hl, hway.symm⟩, fun _ _ ↦ trivial⟩
  · refine Depth.transport (P := fun _ ↦ True) (fun k l _ hl ↦ ?_) trivial
    obtain ⟨l', hl', hway, -⟩ := hr.new hl
    exact ⟨⟨l', hl', hway⟩, fun _ _ ↦ trivial⟩

end Replaces

namespace Forest

/-- A new flow may hang itself on one that is there; it is an orphan for the time being. -/
theorem insert (hF : Forest L F O) (hvalid : F.Valid) (hchildren : f.children = [])
    (hlooped : f.looped = false)
    (hroot : f.parent = none →
      f.source = F.nextHandle ∧ f.pipe = none ∧ ∃ n, L.core? f.node = some n ∧ n.kind = .source)
    (hcame : ∀ p, f.parent = some p → ∃ g, F.find? p = some g ∧ f.source = g.source ∧
      ∃ fwd w, f.pipe = some fwd ∧ L.Runs fwd w ∧ w.sender = g.node ∧ w.receiver = f.node ∧
        w.inPort = f.port)
    (hleaves : ∀ p g fwd w, f.parent = some p → F.find? p = some g → f.pipe = some fwd →
      L.Runs fwd w → g.Leaves w.outPort) :
    Forest L (F.insert f) (O ∪ {F.nextHandle}) := by
  have hfresh : F.find? F.nextHandle = none := Arena.find?_nextHandle hvalid
  have hkeep : ∀ g k, F.find? g = some k → (F.insert f).find? g = some k := fun g k hk ↦
    Arena.find?_insert_of_some hvalid hk
  have hself : (F.insert f).find? F.nextHandle = some f := Arena.find?_insert_self hvalid
  have hold : ∀ g k, (F.insert f).find? g = some k →
      g = F.nextHandle ∧ k = f ∨ g ≠ F.nextHandle ∧ F.find? g = some k := fun _ _ ↦
    Arena.of_find?_insert hvalid
  have hcarries : Carries (fun _ ↦ True) F (F.insert f) := fun g k _ hk ↦
    ⟨⟨k, hkeep g k hk, rfl⟩, fun _ _ ↦ trivial⟩
  have hup : ∀ {c k h l}, F.find? c = some k → k.parent = some h →
      (F.insert f).find? h = some l → F.find? h = some l := fun hk hp hl ↦ by
    obtain ⟨g, hg⟩ := hF.parent_live hk hp
    exact hg.trans ((hkeep _ g hg).symm.trans hl)
  -- Each fact is shown of the new flow from what is known of it, and of the others as before.
  refine ⟨fun h k hk ↦ ?_, fun h k c hk hc ↦ ?_, fun c k h l hk hcO hp hl ↦ ?_,
    fun h k hk hp ↦ ?_, fun c k h l hk hp hl ↦ ?_, fun h k hk hl ↦ ?_,
    fun c k h l fwd w hk hp hl hpipe hw ↦ ?_, fun h k hk ↦ ?_⟩
  · rcases hold h k hk with ⟨rfl, rfl⟩ | ⟨-, hk⟩
    · cases hp : k.parent with
      | none => exact ⟨0, .root hself hp⟩
      | some p =>
        obtain ⟨g, hg, -⟩ := hcame p hp
        obtain ⟨d, hd⟩ := hF.depth p g hg
        exact ⟨d + 1, .step hself hp (hd.transport hcarries trivial)⟩
    · obtain ⟨d, hd⟩ := hF.depth h k hk
      exact ⟨d, hd.transport hcarries trivial⟩
  · rcases hold h k hk with ⟨rfl, rfl⟩ | ⟨-, hk⟩
    · exact absurd (hchildren ▸ hc) List.not_mem_nil
    · obtain ⟨g, hg, hp⟩ := hF.children h k c hk hc
      exact ⟨g, hkeep c g hg, hp⟩
  · rcases hold c k hk with ⟨rfl, rfl⟩ | ⟨hc, hk⟩
    -- The new flow is an orphan, so nobody has to list it.
    · exact absurd (.inr rfl) hcO
    · exact hF.listed c k h l hk (fun hmem ↦ hcO (.inl hmem)) hp (hup hk hp hl)
  · rcases hold h k hk with ⟨rfl, rfl⟩ | ⟨-, hk⟩
    · exact hroot hp
    · exact hF.root h k hk hp
  · rcases hold c k hk with ⟨rfl, rfl⟩ | ⟨-, hk⟩
    · obtain ⟨g, hg, hrest⟩ := hcame h hp
      rw [hkeep h g hg] at hl
      exact Option.some.inj hl ▸ hrest
    · exact hF.came c k h l hk hp (hup hk hp hl)
  · rcases hold h k hk with ⟨rfl, rfl⟩ | ⟨-, hk⟩
    · exact absurd (hlooped.symm.trans hl) (by simp)
    · obtain ⟨key, hkey, hmeets⟩ := hF.looped h k hk hl
      exact ⟨key, hkey, hmeets.transport hcarries fun _ _ ↦ trivial⟩
  · rcases hold c k hk with ⟨rfl, rfl⟩ | ⟨-, hk⟩
    · obtain ⟨g, hg, -⟩ := hcame h hp
      rw [hkeep h g hg] at hl
      exact Option.some.inj hl ▸ hleaves h g fwd w hp hg hpipe hw
    · exact hF.leaves c k h l fwd w hk hp (hup hk hp hl) hpipe hw
  · rcases hold h k hk with ⟨rfl, rfl⟩ | ⟨-, hk⟩
    · exact hchildren ▸ List.nodup_nil
    · exact hF.nodup h k hk

/-- An orphan on which nothing hangs may go. -/
theorem lack (hF : Forest L F (O ∪ {h})) (hold : Arena.Lacks h F F')
    (hleaf : ∀ c g, F.find? c = some g → g.parent ≠ some h)
    (hloose : ∀ g f, F.find? g = some f → h ∉ f.children) : Forest L F' O := by
  refine hF.restrict (fun g k hk ↦ ⟨k, ((hold g k).1 hk).2, rfl⟩) (fun g k p hk hp ↦ ?_)
    (fun g k c hk hc ↦ ?_) (fun c k g l hk hcO hp hl ↦ ?_)
    (fun g k hk hl ↦ hF.looped g k ((hold g k).1 hk).2 hl)
    fun g k hk ↦ hF.nodup g k ((hold g k).1 hk).2
  · obtain ⟨-, hk⟩ := (hold g k).1 hk
    obtain ⟨l, hl⟩ := hF.parent_live hk hp
    exact ⟨l, (hold p l).2 ⟨fun he ↦ hleaf g k hk (he ▸ hp), hl⟩⟩
  · obtain ⟨-, hk⟩ := (hold g k).1 hk
    obtain ⟨l, hl, hp⟩ := hF.children g k c hk hc
    exact ⟨l, (hold c l).2 ⟨fun he ↦ hloose g k hk (he ▸ hc), hl⟩, hp⟩
  · obtain ⟨hch, hk⟩ := (hold c k).1 hk
    obtain ⟨-, hl⟩ := (hold g l).1 hl
    exact hF.listed c k g l hk (fun hmem ↦ hmem.elim hcO hch) hp hl

end Forest

end HeaderFlow
