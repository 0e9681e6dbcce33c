import HeaderFlow.Proofs.Network.Aftermath

/-!
# Loop detection bounds propagation

Following a flow up, one meets rules at **different places only**, except that the flow one started
from may be looped. So the way up is no longer than there are places, and two more: the root at a
source, and a last flow that goes no further (`Network.Winds`). This is so in every network, also
after changes that were broken off.

Visits are nested along such a way. Where the settings allow two more nested visits than there are
places, and do not limit visits and time, **no change is broken off** (`Attained.not_tooComplex`),
however the nodes are connected. The number of places does not depend on the limits, so this is also
why propagation ends.

## Both halves in one statement

`Attained.propagation_bounded` has the bound on ways and the consequence for changes. The first
holds whatever the settings are. The second needs room for the places **after** the change, since a
change may add a rule and be broken off in its own propagation.

That the bound is attained is shown by a ring of two rules (`propagation_bounded_ring`). The flow
that comes back is as far from its source as any flow can be, and with one visit less the source
would have been broken off.
-/

namespace HeaderFlow

variable {net : Network} {L : Layout} {F : Arena Flow} {h p : Handle} {f g : Flow} {d fuel : Nat}
  {place : UInt64}

namespace Network

/-- The place of a flow at a rule: what of the rule's identifier counts when loops are sought. -/
def place? (net : Network) (f : Flow) : Option UInt64 := do
  let n ← net.nodeAt? f.node
  let _ ← n.rule?
  return n.id &&& net.settings.loopDetection.keyMask

/-- The chain is the way up from the flow `h`. -/
structure Winds (net : Network) (h : Handle) (chain : List Flow) : Prop where
  /-- It starts with the flow. -/
  head : ∃ f, net.flows.find? h = some f ∧ chain.head? = some f
  /-- Nothing is above the last flow. -/
  whole : ∀ f ∈ chain.getLast?, ∀ p, f.parent = some p → net.flows.find? p = none
  /-- The places of flows that are not looped are different. -/
  apart : ((chain.filter (!·.looped)).filterMap net.place?).Nodup
  /-- Only the first flow may be looped. -/
  leaf : ∀ f ∈ chain.tail, f.looped = false
  /-- What came from a looped flow is gone. -/
  barren : ∀ f ∈ chain.head?, f.looped = true → ∀ c ∈ f.children, net.flows.find? c = none
  /-- There are at most two more flows than places. -/
  short : chain.length ≤ net.places.card + 2

/-- The place of a flow is that of its node in the layout. -/
theorem loopKey?_of_place? (hplace : net.place? f = some place) :
    net.layout.loopKey? f.node = some place := by
  rw [place?] at hplace
  cases hn : net.nodeAt? f.node with
  | none => simp [hn] at hplace
  | some n =>
    rw [Layout.loopKey?, Layout.core?_of_nodeAt? hn]
    cases hr : n.role with
    | rule r =>
      simp only [hn, Node.rule?, hr, Option.bind_eq_bind, Option.bind_some] at hplace
      simp only [Node.core, Role.kind, hr]
      exact hplace
    | source => simp [hn, Node.rule?, hr] at hplace
    | probe q => simp [hn, Node.rule?, hr] at hplace

/-! ### Ways up -/

/-- The chain is the flow `h`, the flow it came from, and so on, as long as they are there. -/
inductive Climbs (net : Network) : Handle → List Flow → Prop
  | top {h : Handle} {f : Flow} :
    net.Holds h f → (∀ p, f.parent = some p → net.flows.find? p = none) → Climbs net h [f]
  | up {h p : Handle} {f : Flow} {chain : List Flow} :
    net.Holds h f → f.parent = some p → Climbs net p chain → Climbs net h (f :: chain)

/-- **The fuel is enough to follow a line to its end.** -/
theorem climbs_of_line {X : Set Handle} (hK : Kin net X) (hf : net.Holds h f)
    (hd : Line net.flows h d) (hfuel : d < fuel) :
    Climbs net h (ancestry net.flows fuel (some h)) ∧
      (ancestry net.flows fuel (some h)).length = d + 1 := by
  -- along the line: a unit of fuel is used for each flow on it
  induction hd generalizing f fuel with
  | @top h f' hf' hpast =>
    obtain rfl := Option.some.inj (hf.1.symm.trans hf')
    have hend : ∀ p, f.parent = some p → net.flows.find? p = none := fun p hp ↦
      (hpast p hp).find?_eq_none
    cases fuel with
    | zero => exact absurd hfuel (Nat.lt_irrefl 0)
    | succ fuel =>
      have hnil : ancestry net.flows fuel f.parent = [] := by
        cases fuel with
        | zero => rfl
        | succ fuel =>
          cases hp : f.parent with
          | none => rfl
          | some p => simp [ancestry, hend p hp]
      rw [ancestry, hf.1]
      simp only [hnil]
      exact ⟨.top hf hend, rfl⟩
  | @step h p f' d hf' hp hd ih =>
    obtain rfl := Option.some.inj (hf.1.symm.trans hf')
    obtain ⟨g, hg⟩ := hd.live
    obtain ⟨hg, -⟩ := (hK.parent h f p hf hp).of_live hg
    cases fuel with
    | zero => exact absurd hfuel (Nat.not_lt_zero _)
    | succ fuel =>
      obtain ⟨hclimbs, hlength⟩ := ih hg (Nat.lt_of_succ_lt_succ hfuel)
      rw [ancestry, hf.1]
      simp only [hp]
      exact ⟨.up hf hp hclimbs, by rw [List.length_cons, hlength]⟩

namespace Climbs

variable {chain : List Flow} {X : Set Handle}

/-- The chain begins with the flow. -/
theorem head (hc : Climbs net h chain) : ∃ f rest, chain = f :: rest ∧ net.Holds h f := by
  cases hc with
  | top hf => exact ⟨_, _, rfl, hf⟩
  | up hf => exact ⟨_, _, rfl, hf⟩

/-- Nothing came from a looped flow that is still there. -/
theorem barren (hc : Climbs net h chain) (hK : Kin net X) :
    ∀ f ∈ chain.head?, f.looped = true → ∀ c ∈ f.children, net.flows.find? c = none := by
  obtain ⟨f, rest, rfl, hf⟩ := hc.head
  rintro f ⟨⟩ hloop c hc
  obtain hpast | ⟨g, hg, hp⟩ := hK.children h f c hf hc
  · exact hpast.find?_eq_none
  · obtain ⟨-, hloop', -⟩ := (hK.parent c g h hg hp).of_live hf.1
    exact absurd (hloop.symm.trans hloop') (by simp)

/-- The chain ends where there is nothing above. -/
theorem whole (hc : Climbs net h chain) :
    ∀ f ∈ chain.getLast?, ∀ p, f.parent = some p → net.flows.find? p = none := by
  induction hc with
  | top hf hend =>
    rintro f ⟨⟩
    exact hend
  | up _ _ hc ih =>
    obtain ⟨g, rest, rfl, -⟩ := hc.head
    rwa [List.getLast?_cons_cons]

/-- Only the flow at the beginning may be looped. -/
theorem leaf (hc : Climbs net h chain) (hK : Kin net X) : ∀ f ∈ chain.tail, f.looped = false := by
  induction hc with
  | top => exact fun f hf ↦ absurd hf List.not_mem_nil
  | @up h p f chain hf hp hc ih =>
    obtain ⟨g, rest, rfl, hg⟩ := hc.head
    obtain ⟨-, hloop, -⟩ := (hK.parent h f p hf hp).of_live hg.1
    intro g' hg'
    rcases List.mem_cons.1 hg' with rfl | hg'
    · exact hloop
    · exact ih g' hg'

theorem meets (hc : Climbs net h chain) (hplace : place ∈ chain.filterMap net.place?) :
    Meets net.layout net.flows place (some h) := by
  induction hc with
  | top hf =>
    obtain ⟨g, hg, hself⟩ := List.mem_filterMap.1 hplace
    obtain rfl := List.mem_singleton.1 hg
    exact .here hf.1 (loopKey?_of_place? hself)
  | up hf hp _ ih =>
    rw [List.filterMap_cons] at hplace
    split at hplace
    · exact .above hf.1 (hp ▸ ih hplace)
    · rename_i hself
      rcases List.mem_cons.1 hplace with rfl | hplace
      · exact .here hf.1 (loopKey?_of_place? hself)
      · exact .above hf.1 (hp ▸ ih hplace)

/-- **A flow that is not looped is at a place that is not met above.** -/
theorem apart (hc : Climbs net h chain) (hK : Kin net ∅) :
    ((chain.filter (!·.looped)).filterMap net.place?).Nodup := by
  induction hc with
  | @top h f hf hend =>
    refine List.Nodup.sublist ((List.filter_sublist).filterMap _) ?_
    rw [List.filterMap_cons]
    split <;> simp
  | @up h p f chain hf hp hc ih =>
    rw [List.filter_cons]
    split
    · rename_i hloop
      rw [List.filterMap_cons]
      split
      · exact ih
      · rename_i place hplace
        -- had the place been met above, the flow would be looped
        refine List.nodup_cons.2 ⟨fun hmem ↦ ?_, ih⟩
        refine hK.apart h f place hf (Set.notMem_empty h) (by simpa using hloop)
          (loopKey?_of_place? hplace) (hp ▸ hc.meets ?_)
        exact (List.filter_sublist.filterMap _).subset hmem
    · exact ih

end Climbs

/-- Layout and network count the same places. -/
theorem card_places_le (net : Network) : net.layout.places.card ≤ net.places.card :=
  Finset.card_le_card fun _ ↦ mem_places_of_layout

/-! ### Every network -/

/-- What a node lists is there. -/
theorem Attained.holds (ha : Attained net) (hlists : net.Lists h) : ∃ f, net.Holds h f := by
  obtain ⟨m, hm, hh⟩ := hlists
  have hat := nodeAt?_of_mem (map_key_cores net ▸ ha.orderly.exact.nodup) hm
  have hroster : net.roster m.key = m.flows := tied_of_nodeAt? hat
  exact (ha.orderly.kin.holds (hroster ▸ hh)).imp fun f hf ↦ hf.1

/-- **The way up from a listed flow is short**, because it does not meet a place twice. -/
theorem Attained.winds (ha : Attained net) (hlists : net.Lists h) :
    net.Winds h (net.lineage (some h)) := by
  have hK := ha.orderly.kin
  obtain ⟨f, hf⟩ := ha.holds hlists
  obtain ⟨d, hd⟩ := hK.line h f hf
  obtain ⟨hclimbs, hlength⟩ := climbs_of_line hK hf hd hd.lt_size
  refine ⟨?_, hclimbs.whole, hclimbs.apart hK, hclimbs.leaf hK, hclimbs.barren hK, ?_⟩
  · obtain ⟨f, rest, hchain, hf⟩ := hclimbs.head
    exact ⟨f, hf.1, by rw [lineage, hchain, List.head?_cons]⟩
  · have hle := hK.line_le_succ hf hd
    have hcard := card_places_le net
    rw [lineage, hlength]
    omega

/-- **A change that is broken off leaves a network with too many places for the limits.** -/
theorem Attained.tight_of_tooComplex (ha : Attained net) {m : Mutation} {overrun : Overrun}
    (htoo : (net.apply m).result = .error (.tooComplex overrun))
    (hvisits : net.settings.maxVisits = 0) (htime : net.settings.timeoutMs = 0) :
    net.settings.maxDepth.toNat < (net.apply m).network.places.card + 2 := by
  have hfaultless : Faultless (net.apply m).result := fun f hf ↦ by
    rw [htoo] at hf
    cases hf
  have hstrains := (settles_apply ha.orderly m hfaultless).2 overrun htoo
  have hdepth := (hstrains.resolve_left fun hne ↦ hne hvisits).resolve_left fun hne ↦ hne htime
  have hcard := card_places_le (net.apply m).network
  omega

/-- **Loop detection bounds every propagation.** The way up from a listed flow has at most two more
flows than there are places. Where the settings allow visits to be nested that deep, and limit
neither visits nor time, no change is broken off. A change that is broken off leaves the network as
it was at that moment, so of the places during the change those after it are enough. -/
theorem Attained.propagation_bounded (ha : Attained net) :
    (∀ h, net.Lists h → net.Winds h (net.lineage (some h))) ∧
      ∀ m, net.settings.maxVisits = 0 → net.settings.timeoutMs = 0 →
        (net.apply m).network.places.card + 2 ≤ net.settings.maxDepth.toNat →
        ∀ overrun, (net.apply m).result ≠ .error (.tooComplex overrun) := by
  refine ⟨fun h ↦ ha.winds, fun m hvisits htime hdepth overrun htoo ↦ ?_⟩
  have := ha.tight_of_tooComplex htoo hvisits htime
  omega

/-- Two rules that send to each other, and a source. -/
def ring (maxDepth : UInt64) : Network :=
  [.addTable 1 [11, 12], .addTable 2 [21, 22],
    .addLink ⟨1, 11⟩, .addLink ⟨12, 21⟩, .addLink ⟨22, 11⟩,
    .addRule { table := 1, index := 1, inPorts := [], outPorts := [12], accepts := .allWild 1 },
    .addRule { table := 2, index := 1, inPorts := [], outPorts := [22], accepts := .allWild 1 },
    .addSourcePattern (.allWild 1) [1]].foldl (fun net m ↦ (net.apply m).network)
    (.new 1 { Settings.default with maxDepth := maxDepth, maxVisits := 0, timeoutMs := 0 })

/-- The flow that has come back to the first rule is as far down as a flow can be. With less room
its source would have been broken off; with this, another source can be added. -/
theorem propagation_bounded_ring : (ring 3).consistent = false ∧
    (ring 4).Lists ⟨3, 0⟩ ∧ ((ring 4).lineage (some ⟨3, 0⟩)).length = (ring 4).places.card + 2 ∧
    (ring 4).Winds ⟨3, 0⟩ ((ring 4).lineage (some ⟨3, 0⟩)) ∧
    ∀ overrun, ((ring 4).apply (.addSourcePattern (.allWild 1) [1])).result ≠
      .error (.tooComplex overrun) := by
  have harises : Arises (ring 4) := by
    repeat refine .apply _ ?_ trivial
    exact .new _ _
  have hlists : (ring 4).Lists ⟨3, 0⟩ := by
    rw [Lists]
    decide +kernel
  obtain ⟨hwinds, hchange⟩ := harises.attained.propagation_bounded
  exact ⟨by decide +kernel, hlists, by decide +kernel, hwinds _ hlists,
    hchange _ (by decide +kernel) (by decide +kernel) (by decide +kernel)⟩

end Network

end HeaderFlow
