import HeaderFlow.Proofs.Network.Drop
import HeaderFlow.Proofs.Network.Kinship
import HeaderFlow.Proofs.Network.Outline

/-!
# Steps that bring no flow

Dropping flows, changing what is said of their headers, telling probes: these steps count no visit
and leave the outline as it is (`Tame`), and all of them prune the listed flows (`Prunes`).
**Dropping works downwards**, so what is dropped has at least as many flows above it as the flow at
which it starts.

## Handles that were read earlier

A walk down a tree reads the children of a flow and then drops them one by one, and what one of them
drops may contain another. So nothing is asked of a handle but that it `LiesAt` some height **if**
it names a flow at all: where it names none, there is nothing to be done.

The lemmas come in pairs for each function of the engine: that it is tame, for which it is enough to
say how it is composed, and that it prunes, which is about what it leads to. Only those that do not
call themselves are looked at here; visits, which may bring flows, come later.
-/

namespace HeaderFlow

open Engine

variable {net net' : Network} {X : Set Handle} {h c : Handle} {f g : Flow} {d e fuel : Nat}
  {key : NodeKey} {b v : Bool}

/-! ### Single steps -/

namespace Prunes

/-- Quiet steps prune nothing. -/
theorem of_quiet (hq : Quiet net net') (hK : Kin net X) : Prunes d net net' := by
  have hholds : ∀ h f, net'.Holds h f ↔ net.Holds h f := fun h f ↦ by
    rw [Network.Holds, Network.Holds, hq.flows, hq.roster]
  refine ⟨⟨hq.layout, fun h hp ↦ hq.flows ▸ hp, fun h f hf ↦ .inr ⟨f, (hholds h f).2 hf, rfl, rfl⟩,
    fun h f e hf _ _ ↦ ((hholds h f).2 hf).not_past, fun key _ ↦ hq.roster ▸ List.Subset.refl _⟩,
    hq.flows ▸ hK.valid, fun key h hmem ↦ ?_,
    fun h f hf ↦ ⟨f, (hholds h f).1 hf, rfl, rfl, List.Subset.refl _⟩⟩
  rw [hq.flows]
  exact hK.roster key h (hq.roster ▸ hmem)

/-- What is said of one flow may change, as long as it stays where it is. -/
theorem withFlow {k : Flow → Flow} (hK : Kin net X) (hway : ∀ f, (k f).way = f.way)
    (hlooped : ∀ f, (k f).looped = f.looped) (hchildren : ∀ f, (k f).children ⊆ f.children) :
    Prunes d net (Engine.withFlow net h k) := by
  have hnew : ∀ g f, net.flows.find? g = some f → ∃ f', (net.flows.modify h k).find? g = some f' ∧
      f'.way = f.way ∧ f'.looped = f.looped ∧ f'.children ⊆ f.children := by
    intro g f hf
    by_cases hg : g = h
    · subst hg
      exact ⟨k f, Arena.find?_modify_self hf, hway f, hlooped f, hchildren f⟩
    · exact ⟨f, (Arena.find?_modify_of_ne hg).trans hf, rfl, rfl, List.Subset.refl _⟩
  have hkept : ∀ g f, net.Holds g f → ∃ f', (Engine.withFlow net h k).Holds g f' ∧
      f'.way = f.way ∧ f'.looped = f.looped ∧ f'.children ⊆ f.children := by
    intro g f hf
    obtain ⟨f', hf', hway, hrest⟩ := hnew g f hf.1
    exact ⟨f', ⟨hf', Flow.node_eq hway ▸ hf.2⟩, hway, hrest⟩
  refine ⟨⟨rfl, fun g hp ↦ Arena.past_modify.2 hp, fun g f hf ↦ ?_, fun g f e hf _ _ ↦ ?_,
    fun key _ ↦ List.Subset.refl _⟩, Arena.valid_modify hK.valid, fun key g hmem ↦ ?_,
    fun g f' hf' ↦ ?_⟩
  · obtain ⟨f', hf', hway, hloop, -⟩ := hkept g f hf
    exact .inr ⟨f', hf', hway, hloop⟩
  · obtain ⟨f', hf', -⟩ := hkept g f hf
    exact hf'.not_past
  · obtain ⟨f, hf, hnode⟩ := hK.roster key g hmem
    obtain ⟨f', hf', hway, -⟩ := hnew g f hf
    exact ⟨f', hf', (Flow.node_eq hway).trans hnode⟩
  · have hmem : g ∈ net.roster f'.node := hf'.2
    obtain ⟨f, hf, hnode⟩ := hK.holds hmem
    obtain ⟨f'', hf'', hrest⟩ := hkept g f hf
    obtain rfl := hf''.unique hf'
    exact ⟨f, hf, hrest⟩

/-- A flow that is stored is not listed yet. -/
theorem insert (hK : Kin net X) : Prunes d net { net with flows := net.flows.insert f } := by
  have hkept : ∀ h g, net.Holds h g → Network.Holds { net with flows := net.flows.insert f } h g :=
    fun h g hg ↦ ⟨Arena.find?_insert_of_some hK.valid hg.1, hg.2⟩
  refine ⟨⟨rfl, fun h hp ↦ hp.insert, fun h g hg ↦ .inr ⟨g, hkept h g hg, rfl, rfl⟩,
    fun h g e hg _ _ ↦ (hkept h g hg).not_past, fun key _ ↦ List.Subset.refl _⟩,
    Arena.valid_insert hK.valid, fun key h hmem ↦ ?_, fun h f' hf' ↦ ?_⟩
  · obtain ⟨g, hg, hnode⟩ := hK.roster key h hmem
    exact ⟨g, Arena.find?_insert_of_some hK.valid hg, hnode⟩
  · have hmem : h ∈ net.roster f'.node := hf'.2
    obtain ⟨g, hg, -⟩ := hK.holds hmem
    obtain rfl := (hkept h g hg).unique hf'
    exact ⟨g, hg, rfl, rfl, List.Subset.refl _⟩

/-- **A flow that is discarded is past**, and those above it stay. -/
theorem discard (hl : Leads (Engine.discardFlow h f.node) net () net') (hK : Kin net X)
    (hf : net.Holds h f) (hd : Line net.flows h d) : Prunes d net net' ∧ net'.flows.Past h := by
  obtain ⟨hflows, hlayout, hroster⟩ := hl.discardFlow
  have hpast : net'.flows.Past h := hflows ▸ Arena.past_erase hf.1
  have hfind : ∀ g, g ≠ h → net'.flows.find? g = net.flows.find? g := fun g hg ↦ by
    rw [hflows, Arena.find?_erase, if_neg hg]
  have hmem : ∀ key g, g ∈ net'.roster key ↔ g ∈ net.roster key ∧ g ≠ h := by
    intro key g
    rw [hroster]
    split
    · simp
    · rename_i hne
      refine ⟨fun hg ↦ ⟨hg, ?_⟩, And.left⟩
      rintro rfl
      obtain ⟨f', hf', hnode⟩ := hK.roster key g hg
      obtain rfl := Option.some.inj (hf'.symm.trans hf.1)
      exact hne hnode.symm
  have hholds : ∀ g k, net'.Holds g k ↔ net.Holds g k ∧ g ≠ h := by
    intro g k
    rw [Network.Holds, Network.Holds, hmem]
    constructor
    · rintro ⟨hk, hg, hne⟩
      exact ⟨⟨hfind g hne ▸ hk, hg⟩, hne⟩
    · rintro ⟨⟨hk, hg⟩, hne⟩
      exact ⟨(hfind g hne).trans hk, hg, hne⟩
  refine ⟨⟨⟨hlayout, fun g hp ↦ hflows ▸ hp.erase, fun g k hk ↦ ?_, fun g k e hk he hlt ↦ ?_,
    fun key _ g hg ↦ ((hmem key g).1 hg).1⟩, hflows ▸ Arena.valid_erase hK.valid, fun key g hg ↦ ?_,
    fun g k hk ↦ ⟨k, ((hholds g k).1 hk).1, rfl, rfl, List.Subset.refl _⟩⟩, hpast⟩
  · by_cases hg : g = h
    · exact .inl (hg ▸ hpast)
    · exact .inr ⟨k, (hholds g k).2 ⟨hk, hg⟩, rfl, rfl⟩
  -- what has fewer flows above it is another flow
  · have hne : g ≠ h := by
      rintro rfl
      exact absurd (he.unique hd) (by omega)
    exact ((hholds g k).2 ⟨hk, hne⟩).not_past
  · obtain ⟨hg, hne⟩ := (hmem key g).1 hg
    obtain ⟨k, hk, hnode⟩ := hK.roster key g hg
    exact ⟨k, (hfind g hne).trans hk, hnode⟩

end Prunes

namespace Engine

/-- Telling a probe prunes nothing. -/
theorem Leads.prunes_notify {change : Network → Checked FlowChange} (hL : net.layout.WellFormed)
    (hl : Leads (Engine.notify key h change) net () net') (hK : Kin net X) : Prunes d net net' :=
  .of_quiet (quiet_notify (map_key_cores net ▸ hL.nodup) hl) hK

/-- A flow that loses its children stays where it is, and so do they. -/
theorem Leads.prunes_detachChildren (hL : net.layout.WellFormed)
    (hl : Leads (Engine.detachChildren h f) net () net') (hK : Kin net X) : Prunes d net net' := by
  have hdetached : Prunes d net (withFlow net h fun f ↦ { f with children := [] }) :=
    .withFlow hK (fun _ ↦ rfl) (fun _ ↦ rfl) fun _ ↦ List.nil_subset _
  exact hdetached.trans (.of_quiet (hl.detachChildren (map_key_cores net ▸ hL.nodup))
    (hdetached.kin hK)) hK

/-! ### Dropping -/

/-- If the handle names a flow, it is a listed one with `d` flows above it. -/
def LiesAt (net : Network) (d : Nat) (h : Handle) : Prop :=
  ∀ f, net.flows.find? h = some f → net.Holds h f ∧ Line net.flows h d

/-- The flows that came from a listed one lie one below it. -/
theorem liesAt_child (hd : Line net.flows h d)
    (hc : net.Traces (fun g ↦ g.parent = some h) c) : LiesAt net (d + 1) c := fun g hg ↦ by
  obtain ⟨hg, hp⟩ := hc.of_live hg
  exact ⟨hg, .step hg.1 hp hd⟩

/-- A walk over the flows that came from one, each of which is dropped. -/
theorem prunes_forM_drop {drop : Handle → Engine Unit} {l : List Handle}
    (hdrop : ∀ c net net', net.layout.WellFormed → Kin net X → LiesAt net (d + 1) c →
      Leads (drop c) net () net' → Prunes (d + 1) net net')
    (hL : net.layout.WellFormed) (hK : Kin net X) (hf : net.Holds h f) (hd : Line net.flows h d)
    (hchildren : ∀ c ∈ l, net.Traces (fun g ↦ g.parent = some h) c)
    (hl : Leads (l.forM drop) net () net') : Prunes (d + 1) net net' := by
  refine hl.forM (I := fun _ mid ↦ Prunes (d + 1) net mid) (.refl (d + 1) hK) ?_
  intro c rest mid mid' hc hmid hstep
  obtain ⟨f', hf', -⟩ := hmid.holds hf hd (Nat.lt_succ_self d)
  have hc' : LiesAt mid (d + 1) c :=
    liesAt_child (hmid.line hK hf hd (Nat.lt_succ_self d)) <|
      hmid.traces (hchildren c hc) fun _ _ hway _ hp ↦ (Flow.parent_eq hway).trans hp
  exact hmid.trans (hdrop c mid mid' (hmid.layout ▸ hL) (hmid.kin hK) hc' hstep) hK

/-- **Dropping a tree spares everything above it**, and leaves its top past. -/
theorem Leads.prunes_dropTree (hl : Leads (Engine.dropTree fuel h) net () net')
    (hL : net.layout.WellFormed) (hK : Kin net X) (hh : LiesAt net d h) :
    Prunes d net net' ∧ (0 < fuel → ∀ f, net.Holds h f → net'.flows.Past h) := by
  induction fuel generalizing net net' h d with
  | zero =>
    obtain ⟨-, rfl⟩ := leads_pure.1 hl
    exact ⟨.refl d hK, fun hlt ↦ absurd hlt (Nat.lt_irrefl 0)⟩
  | succ fuel ih =>
    rw [Engine.dropTree, leads_flow?_bind] at hl
    cases hf : net.flows.find? h with
    | none =>
      rw [hf] at hl
      obtain ⟨-, rfl⟩ := leads_pure.1 hl
      exact ⟨.refl d hK, fun _ f hf' ↦ absurd (hf.symm.trans hf'.1) (by simp)⟩
    | some f =>
      rw [hf] at hl
      obtain ⟨hf, hd⟩ := hh f hf
      obtain ⟨⟨⟩, net₁, hdetach, hl⟩ := hl.bind
      obtain ⟨⟨⟩, net₂, hloop, hdiscard⟩ := hl.bind
      -- up to the last step everything happens below `h`, which is still there
      have h₁ : Prunes (d + 1) net net₁ := hdetach.prunes_detachChildren hL hK
      obtain ⟨f₁, hf₁, hway₁, -⟩ := h₁.holds hf hd (Nat.lt_succ_self d)
      have hd₁ := h₁.line hK hf hd (Nat.lt_succ_self d)
      have h₂ : Prunes (d + 1) net₁ net₂ :=
        prunes_forM_drop (fun c m m' hLm hKm hc hcl ↦ (ih hcl hLm hKm hc).1) (h₁.layout ▸ hL)
          (h₁.kin hK) hf₁ hd₁ (fun c hc ↦ h₁.traces (hK.children h f c hf hc) fun _ _ hway _ hp ↦
            (Flow.parent_eq hway).trans hp) hloop
      have h₁₂ := h₁.trans h₂ hK
      obtain ⟨f₂, hf₂, hway₂, -⟩ := h₁₂.holds hf hd (Nat.lt_succ_self d)
      rw [← Flow.node_eq hway₂] at hdiscard
      obtain ⟨h₃, hpast⟩ := Prunes.discard hdiscard (h₁₂.kin hK) hf₂
        (h₁₂.line hK hf hd (Nat.lt_succ_self d))
      exact ⟨(h₁₂.mono (Nat.le_succ d)).trans h₃ hK, fun _ _ _ ↦ hpast⟩

/-- The number of slots is fuel enough to drop a tree. -/
theorem Leads.prunes_dropSubtree (hl : Leads (Engine.dropSubtree h) net () net')
    (hL : net.layout.WellFormed) (hK : Kin net X) (hh : LiesAt net d h) :
    Prunes d net net' ∧ ∀ f, net.Holds h f → net'.flows.Past h := by
  rw [Engine.dropSubtree, leads_network_bind] at hl
  obtain ⟨hp, hpast⟩ := hl.prunes_dropTree hL hK hh
  exact ⟨hp, fun f hf ↦ hpast (Nat.zero_lt_of_lt (Arena.index_lt hf.1)) f hf⟩

/-- Dropping what is below a flow spares the flow. -/
theorem Leads.prunes_dropBelow (hl : Leads (Engine.dropBelow h) net () net')
    (hL : net.layout.WellFormed) (hK : Kin net X) (hf : net.Holds h f) (hd : Line net.flows h d) :
    Prunes (d + 1) net net' := by
  rw [Engine.dropBelow, leads_flow?_bind, hf.1] at hl
  obtain ⟨⟨⟩, net₁, hdetach, hloop⟩ := hl.bind
  have h₁ : Prunes (d + 1) net net₁ := hdetach.prunes_detachChildren hL hK
  obtain ⟨f₁, hf₁, -⟩ := h₁.holds hf hd (Nat.lt_succ_self d)
  refine h₁.trans (prunes_forM_drop (fun c m m' hLm hKm hc hcl ↦
    (hcl.prunes_dropSubtree hLm hKm hc).1) (h₁.layout ▸ hL) (h₁.kin hK) hf₁
    (h₁.line hK hf hd (Nat.lt_succ_self d)) (fun c hc ↦ ?_) hloop) hK
  exact h₁.traces (hK.children h f c hf hc) fun _ _ hway _ hp ↦ (Flow.parent_eq hway).trans hp

/-- A flow that is taken from the one it came from stays where it is. -/
theorem Leads.prunes_unlink (hl : Leads (Engine.unlink h f) net () net') (hK : Kin net X) :
    Prunes d net net' := by
  rw [Engine.unlink] at hl
  cases hp : f.parent with
  | none =>
    rw [hp] at hl
    obtain ⟨-, rfl⟩ := leads_pure.1 hl
    exact .refl d hK
  | some p =>
    rw [hp] at hl
    obtain rfl := leads_updateFlow.1 hl
    exact .withFlow hK (fun _ ↦ rfl) (fun _ ↦ rfl) fun _ ↦ List.filter_subset_self _

/-- **A flow that is removed is past**, and those above it stay. -/
theorem Leads.prunes_removeFlow (hl : Leads (Engine.removeFlow h) net () net')
    (hL : net.layout.WellFormed) (hK : Kin net X) (hh : LiesAt net d h) :
    Prunes d net net' ∧ ∀ f, net.Holds h f → net'.flows.Past h := by
  rw [Engine.removeFlow, leads_flow?_bind] at hl
  cases hf : net.flows.find? h with
  | none =>
    rw [hf] at hl
    obtain ⟨-, rfl⟩ := leads_pure.1 hl
    exact ⟨.refl d hK, fun f hf' ↦ absurd (hf.symm.trans hf'.1) (by simp)⟩
  | some f =>
    rw [hf] at hl
    obtain ⟨hf, hd⟩ := hh f hf
    obtain ⟨⟨⟩, net₁, hunlink, hdrop⟩ := hl.bind
    have h₁ : Prunes (d + 1) net net₁ := hunlink.prunes_unlink hK
    obtain ⟨f₁, hf₁, -⟩ := h₁.holds hf hd (Nat.lt_succ_self d)
    obtain ⟨h₂, hpast⟩ := hdrop.prunes_dropSubtree (h₁.layout ▸ hL) (h₁.kin hK) fun f' hf' ↦ by
      obtain rfl := Option.some.inj (hf₁.1.symm.trans hf')
      exact ⟨hf₁, h₁.line hK hf hd (Nat.lt_succ_self d)⟩
    exact ⟨(h₁.mono (Nat.le_succ d)).trans h₂ hK, fun _ _ ↦ hpast f₁ hf₁⟩

/-! ### The steps are tame -/

/-! ### How the steps are composed -/

theorem tame_detachChildren (h : Handle) (f : Flow) : Tame v (detachChildren h f) := by
  refine (tame_updateFlow _ _).bind fun _ ↦ tame_network.bind fun net ↦ ?_
  dsimp only
  split
  · exact tame_notify _ _ _
  · exact tame_pure

theorem tame_discardFlow (h : Handle) (key : NodeKey) : Tame v (discardFlow h key) := by
  refine Tame.bind ?_ fun _ ↦ tame_updateNode _ (by exact fun _ ↦ rfl)
  exact tame_update fun _ ↦ ⟨rfl, rfl, rfl⟩

/-- Dropping a tree makes no visit, however deep the tree is. -/
theorem tame_dropTree : ∀ (fuel : Nat) (h : Handle), Tame v (dropTree fuel h)
  | 0, _ => tame_pure
  | fuel + 1, h => by
    refine (tame_flow? h).bind fun o ↦ ?_
    split
    · exact (tame_detachChildren _ _).bind fun _ ↦
        (Tame.forM (tame_dropTree fuel) _).bind fun _ ↦ tame_discardFlow _ _
    · exact tame_pure

theorem tame_dropSubtree (h : Handle) : Tame v (dropSubtree h) :=
  tame_network.bind fun _ ↦ tame_dropTree _ h

theorem tame_dropBelow (h : Handle) : Tame v (dropBelow h) := by
  refine (tame_flow? h).bind fun o ↦ ?_
  split
  · exact (tame_detachChildren _ _).bind fun _ ↦ Tame.forM tame_dropSubtree _
  · exact tame_pure

theorem tame_removeFlow (h : Handle) : Tame v (removeFlow h) := by
  refine (tame_flow? h).bind fun o ↦ ?_
  split
  · refine Tame.bind ?_ fun _ ↦ tame_dropSubtree h
    rw [unlink]
    split
    · exact tame_updateFlow _ _
    · exact tame_pure
  · exact tame_pure

theorem tame_register (key : NodeKey) (h : Handle) : Tame v (register key h) := by
  refine (tame_updateNode _ (by exact fun _ ↦ rfl)).bind fun _ ↦ (tame_flow h).bind fun f ↦ ?_
  split
  · exact tame_updateFlow _ _
  · exact tame_pure

theorem tame_subtractInfluences (port : Port) :
    ∀ (ks : List Handle) (s : Space), Tame v (subtractInfluences port ks s)
  | [], _ => tame_pure
  | k :: ks, s => by
    refine (tame_ask _).bind fun i ↦ ?_
    split
    · exact (tame_check _).bind fun s' ↦ tame_subtractInfluences port ks s'
    · exact tame_subtractInfluences port ks s

theorem tame_recompute (key : NodeKey) (h : Handle) : Tame v (recompute key h) := by
  refine (tame_node key).bind fun n ↦ ?_
  split
  · refine (tame_flow h).bind fun f ↦ (tame_subtractInfluences _ _ _).bind fun left ↦
      (tame_check _).bind fun left ↦ ?_
    split
    · exact (tame_updateFlow _ _).bind fun _ ↦ tame_pure
    · exact (tame_check _).bind fun _ ↦ (tame_updateFlow _ _).bind fun _ ↦ tame_pure
  · exact tame_pure

theorem tame_blocked (key : NodeKey) (h : Handle) (port : Port) :
    Tame v (blocked key h port) := by
  refine (tame_node key).bind fun n ↦ ?_
  split
  · exact tame_pure
  · exact tame_ask _

theorem tame_reportLost (key : NodeKey) (h : Handle) (side back : Pipe) (processed out : Space)
    (measure : Measure) : Tame v (reportLost key h side back processed out measure) := by
  refine tame_network.bind fun net ↦ ?_
  split
  · exact tame_pure
  · refine (tame_check _).bind fun lost ↦ ?_
    split
    · exact (tame_node _).bind fun _ ↦ (tame_node _).bind fun _ ↦ tame_event.bind fun _ ↦
        tame_report rfl
    · exact tame_pure

theorem tame_markLooped (key : NodeKey) (h : Handle) (first : NodeId) :
    Tame v (markLooped key h first) :=
  (tame_updateFlow _ _).bind fun _ ↦ (tame_node key).bind fun _ ↦ tame_event.bind fun _ ↦
    tame_report rfl

theorem tame_lose (h : Handle) (s : Space) (loss : Pattern) : Tame v (lose h s loss) :=
  (tame_check _).bind fun _ ↦ (tame_updateFlow _ _).bind fun _ ↦ tame_pure

theorem tame_reconsiderAtProbe (h : Handle) (f : Flow) (loss : Option Pattern) :
    Tame v (reconsiderAtProbe h f loss) := by
  unfold reconsiderAtProbe
  split
  · exact (tame_lose _ _ _).discard
  · exact tame_pure
  · exact tame_updateFlow _ _

/-! ### Headers -/

/-- Changing the headers of a flow prunes nothing. -/
theorem prunes_withHeaders {k : Flow → Flow} (hK : Kin net X)
    (hk : ∀ f, ∃ input processed, k f = { f with input := input, processed := processed }) :
    Prunes d net (withFlow net h k) := by
  refine .withFlow hK (fun f ↦ ?_) (fun f ↦ ?_) fun f ↦ ?_ <;> obtain ⟨_, _, hk⟩ := hk f <;> rw [hk]
  · rfl
  · exact List.Subset.refl _

/-- Subtracting influences only reads. -/
theorem Leads.eq_of_subtractInfluences {port : Port} {ks : List Handle} {s left : Space}
    (hl : Leads (Engine.subtractInfluences port ks s) net left net') : net' = net := by
  induction ks generalizing s with
  | nil => exact (leads_pure.1 hl).2
  | cons k ks ih =>
    rw [Engine.subtractInfluences, leads_ask_bind] at hl
    obtain ⟨i, -, hl⟩ := hl
    rcases hl.ite with ⟨-, hl⟩ | ⟨-, hl⟩
    · rw [leads_check_bind] at hl
      obtain ⟨_, -, hl⟩ := hl
      exact ih hl
    · exact ih hl

/-- What a flow sends is computed anew, and nothing comes or goes by it. -/
theorem Leads.prunes_recompute (hl : Leads (Engine.recompute key h) net b net') (hK : Kin net X) :
    Prunes d net net' := by
  rw [Engine.recompute, leads_node_bind] at hl
  obtain ⟨n, -, hl⟩ := hl
  split at hl
  · rw [leads_flow_bind] at hl
    obtain ⟨f, -, hl⟩ := hl
    obtain ⟨left, mid, hleft, hrest⟩ := hl.bind
    obtain rfl := hleft.eq_of_subtractInfluences
    rw [leads_check_bind] at hrest
    obtain ⟨left, -, hrest⟩ := hrest
    rcases hrest.ite with ⟨-, hrest⟩ | ⟨-, hrest⟩
    · rw [leads_updateFlow_bind] at hrest
      obtain ⟨-, rfl⟩ := leads_pure.1 hrest
      exact prunes_withHeaders hK fun _ ↦ ⟨_, _, rfl⟩
    · rw [leads_check_bind] at hrest
      obtain ⟨sent, -, hrest⟩ := hrest
      rw [leads_updateFlow_bind] at hrest
      obtain ⟨-, rfl⟩ := leads_pure.1 hrest
      exact prunes_withHeaders hK fun _ ↦ ⟨_, _, rfl⟩
  · obtain ⟨-, rfl⟩ := leads_pure.1 hl
    exact .refl d hK

/-- A flow loses headers and nothing else. -/
theorem Leads.prunes_lose {s : Space} {loss : Pattern}
    (hl : Leads (Engine.lose h s loss) net b net') (hK : Kin net X) : Prunes d net net' := by
  rw [Engine.lose, leads_check_bind] at hl
  obtain ⟨left, -, hl⟩ := hl
  rw [leads_updateFlow_bind] at hl
  obtain ⟨-, rfl⟩ := leads_pure.1 hl
  exact prunes_withHeaders hK fun _ ↦ ⟨_, _, rfl⟩

/-- At a probe the headers of a flow change, and the probe is told. -/
theorem Leads.prunes_reconsiderAtProbe {loss : Option Pattern}
    (hl : Leads (Engine.reconsiderAtProbe h f loss) net () net') (hK : Kin net X) :
    Prunes d net net' := by
  unfold Engine.reconsiderAtProbe at hl
  split at hl
  · obtain ⟨_, hl⟩ := hl.discard
    exact hl.prunes_lose hK
  · obtain ⟨-, rfl⟩ := leads_pure.1 hl
    exact .refl d hK
  · obtain rfl := leads_updateFlow.1 hl
    exact prunes_withHeaders hK fun _ ↦ ⟨_, _, rfl⟩

/-- Asking whether a flow is blocked only reads. -/
theorem Leads.eq_of_blocked {port : Port} (hl : Leads (Engine.blocked key h port) net b net') :
    net' = net := by
  rw [Engine.blocked, leads_node_bind] at hl
  obtain ⟨n, -, hl⟩ := hl
  rcases hl.ite with ⟨-, hl⟩ | ⟨-, hl⟩
  · exact (leads_pure.1 hl).2
  · rw [← bind_pure (ask _), leads_ask_bind] at hl
    obtain ⟨a, -, hl⟩ := hl
    exact (leads_pure.1 hl).2

end Engine

end HeaderFlow
