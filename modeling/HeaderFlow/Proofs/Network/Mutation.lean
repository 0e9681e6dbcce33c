import HeaderFlow.Proofs.Network.SourceChanges

/-!
# Changes of a network

Every change is made of steps that uphold the invariant up to what they owe and what they leave
missing, and each change makes good in the end what its steps left open. Here they come together:
`Network.apply_upheld` is the step, one case for each kind of change, and it says that

* whatever of the invariant held before a change that comes to its end holds after it, and
* each source has the headers that it was added with, `Network.declared` being what that means after
  the change.

`Network.Reached net spaces` is the relation that all theorems about networks at rest are about:
changes, every one of which came to its end, led to `net`, and `spaces` is what its sources were
added with. By induction such a network is at rest and rooted (`Network.Reached.atRest`), and this
is what the relation is good for.

A closed statement has to name a network that is reached. `Network.replay` carries out a list of
changes and answers nothing if one of them is refused, so that `Network.Reached.replay` needs no
more than its value.
-/

namespace HeaderFlow

open Region

variable {L : Layout} {net net' : Network} {F : Arena Flow} {D : Set Debt} {X : Set Handle}
  {E : NodeKey → NodeKey → Link → Prop} {R : NodeKey → NodeKey → Prop} {key : NodeKey} {h : Handle}

namespace Network

open Engine

/-- **Longer headers.** All patterns are widened at once, and no more is to be done: the layout, the
forest and the debts are those of before, widened. Roots keep the headers and the heights of their
sources. -/
theorem expand_upheld {bytes : Nat} (hU : Upheld net D ∅ E R) :
    Upheld (net.expand bytes).network D ∅ E R ∧ SameSources net (net.expand bytes).network := by
  rw [expand]
  split
  · exact ⟨hU, fun _ hr ↦ hr⟩
  · let net' : Network := (Outcome.done { net with
      bytes := bytes
      nodes := net.nodes.map (Node.enlarge bytes)
      pipes := net.pipes.map fun _ p ↦ { p with pattern := p.pattern.enlarge bytes }
      influences := net.influences.map fun _ i ↦ { i with common := i.common.enlarge bytes }
      flows := net.flows.map fun _ f ↦ enlargeFlow bytes f
      lastEvent := some { kind := .expand, first := bytes } } bytes).network
    have hw : Widens bytes net net' := ⟨rfl, rfl, rfl, rfl, rfl, rfl, rfl, rfl⟩
    refine ⟨hw.upheld hU, fun spaces hr ↦ ⟨fun h f' hf' hp ↦ ?_, fun n hn hkind ↦ ?_,
      fun h g f' k' hf' hp hk' hpk hnode ↦ ?_⟩⟩
    · obtain ⟨f, hf, rfl⟩ := find?_enlargeAll.1 hf'
      obtain ⟨s, hs, hcover, hheight⟩ := hr.root h f hf hp
      exact ⟨s, hs, fun x ↦ Flow.input_enlarge.trans (hcover x),
        Space.heightList_enlarge.trans hheight⟩
    · rw [show (net'.layout).cores = _ from congrArg Layout.cores hw.layout] at hn
      obtain ⟨m, hm, rfl⟩ := List.mem_map.1 hn
      have hkind' : m.kind = .source := by
        cases hk : m.kind <;> simp [Core.enlarge, Kind.enlarge, hk] at hkind ⊢
      obtain ⟨h, f, hf, hp, hnode⟩ := hr.source m hm hkind'
      exact ⟨h, f.enlarge bytes, find?_enlargeAll.2 ⟨f, hf, rfl⟩, hp, hnode⟩
    · obtain ⟨f, hf, rfl⟩ := find?_enlargeAll.1 hf'
      obtain ⟨k, hk, rfl⟩ := find?_enlargeAll.1 hk'
      exact hr.unique h g f k hf hp hk hpk hnode

/-- An audit reports and changes nothing. -/
theorem audit_network {table : Option TableId} : (net.audit table).network = net := by
  unfold audit
  dsimp only
  split
  · rfl
  · split <;> rfl

/-- What sources were added with, after a change. -/
def declared (net : Network) (spaces : NodeKey → Option Space) : Mutation → NodeKey → Option Space
  | .addSource space _ => Function.update spaces net.nextKey (some space)
  | .addSourcePattern p _ => Function.update spaces net.nextKey (some (.ofPattern p))
  | _ => spaces

/-- **Every change that comes to its end upholds what held before it**, and leaves each source with
the headers that it was added with. -/
theorem apply_upheld {m : Mutation} {reply : Reply} (hok : (net.apply m).result = .ok reply)
    (hU : Upheld net D ∅ E R) : Upheld (net.apply m).network D ∅ E R ∧
      ∀ spaces, Rooted net spaces → Rooted (net.apply m).network (net.declared spaces m) := by
  cases m with
  | addTable id ports => exact addTable_upheld (Outcome.of_map hok).choose_spec hU
  | removeTable id => exact removeTable_upheld (Outcome.of_map hok).choose_spec hU
  | addRule spec => exact addRule_upheld (Outcome.of_map hok).choose_spec hU
  | removeRule id => exact removeRule_upheld (Outcome.of_map hok).choose_spec hU
  | addLink l => exact addLink_upheld (Outcome.of_map hok).choose_spec hU
  | removeLink l => exact removeLink_upheld (Outcome.of_map hok).choose_spec hU
  | addSource space ports => exact addSource_upheld (Outcome.of_map hok).choose_spec hU
  | addSourcePattern p ports => exact addSource_upheld (Outcome.of_map hok).choose_spec hU
  | removeSource id => exact removeSource_upheld (Outcome.of_map hok).choose_spec hU
  | addProbe spec => exact addProbe_upheld (Outcome.of_map hok).choose_spec hU
  | removeProbe id => exact removeProbe_upheld (Outcome.of_map hok).choose_spec hU
  | restartProbe id => exact restartProbe_upheld (Outcome.of_map hok).choose_spec hU
  | expand bytes => exact expand_upheld hU
  | audit table =>
    rw [show (net.apply (.audit table)).network = net from audit_network]
    exact ⟨hU, fun _ hr ↦ hr⟩

/-- A network that changes led to, every one of which came to its end, with the headers that sources
were added with. -/
inductive Reached : Network → (NodeKey → Option Space) → Prop
  | new (bytes : Nat) (settings : Settings) (clock : Clock := .still) :
    Reached (.new bytes settings clock) fun _ ↦ none
  | apply {net : Network} {spaces : NodeKey → Option Space} (m : Mutation) {reply : Reply} :
    Reached net spaces → (net.apply m).result = .ok reply →
      Reached (net.apply m).network (net.declared spaces m)

/-- A new network is at rest: it has no nodes, no pipes, no flows, and owes nothing. -/
theorem new_atRest (bytes : Nat) (settings : Settings) (clock : Clock) :
    AtRest (.new bytes settings clock) := by
  have hnone : ∀ h f, (Arena.empty : Arena Flow).find? h ≠ some f := Arena.find?_empty_ne
  refine ⟨⟨⟨Arena.valid_empty, List.nodup_nil, by rintro n ⟨⟩, by rintro n ⟨⟩,
    Registry.agrees_nil (by rintro t ⟨⟩), Topology.mirrored_empty, by rintro key h ⟨⟩,
    by rintro key h ⟨⟩, fun _ ↦ List.nodup_nil, by rintro key key' h ⟨⟩⟩, Arena.valid_empty,
    ⟨?_, ?_, fun _ ↦ List.nodup_nil⟩, ?_, ?_⟩,
    ⟨Arena.valid_empty, by rintro key k ⟨⟩, by rintro key k ⟨⟩, by rintro n ⟨⟩⟩, by rintro n ⟨⟩,
    by rintro n ⟨⟩⟩
  · exact fun h f hf ↦ absurd hf (hnone h f)
  · rintro key h ⟨⟩
  · exact ⟨fun h f hf ↦ absurd hf (hnone h f), fun h f c hf ↦ absurd hf (hnone h f),
      fun c g h f hc ↦ absurd hc (hnone c g), fun h f hf ↦ absurd hf (hnone h f),
      fun c g h f hc ↦ absurd hc (hnone c g), fun h f hf ↦ absurd hf (hnone h f),
      fun c g h f fwd w hc ↦ absurd hc (hnone c g), fun h f hf ↦ absurd hf (hnone h f)⟩
  · exact ⟨fun h f hf ↦ absurd hf (hnone h f), fun c g h f fwd w hc ↦ absurd hc (hnone c g),
      fun h f hf ↦ absurd hf (hnone h f), fun h f hf ↦ absurd hf (hnone h f),
      fun h f hf ↦ absurd hf (hnone h f)⟩

/-- **Every network that is reached is at rest, and its sources send what they were added with.** -/
theorem Reached.atRest {spaces : NodeKey → Option Space} (hr : Reached net spaces) :
    AtRest net ∧ Rooted net spaces := by
  induction hr with
  | new bytes settings clock =>
    have hnone : ∀ h f, (Arena.empty : Arena Flow).find? h ≠ some f := Arena.find?_empty_ne
    exact ⟨new_atRest bytes settings clock, fun h f hf ↦ absurd hf (hnone h f), (by rintro n ⟨⟩),
      fun h _ f _ hf ↦ absurd hf (hnone h f)⟩
  | apply m _ hok ih =>
    obtain ⟨hrest, hrooted⟩ := apply_upheld hok ih.1
    exact ⟨hrest, hrooted _ ih.2⟩

/-- Carries out changes one after the other, as long as each comes to its end. -/
def replay : List Mutation → Network × (NodeKey → Option Space) →
    Option (Network × (NodeKey → Option Space))
  | [], state => some state
  | m :: ms, (net, spaces) =>
    match (net.apply m).result with
    | .ok _ => replay ms ((net.apply m).network, net.declared spaces m)
    | .error _ => none

/-- **A list of changes that is carried out to its end leads to a network that is reached.** -/
theorem Reached.replay {ms : List Mutation} {spaces : NodeKey → Option Space}
    {state : Network × (NodeKey → Option Space)} (hr : Reached net spaces)
    (hstate : replay ms (net, spaces) = some state) : Reached state.1 state.2 := by
  induction ms generalizing net spaces with
  | nil =>
    obtain rfl := Option.some.inj hstate
    exact hr
  | cons m ms ih =>
    rw [Network.replay] at hstate
    split at hstate
    · exact ih (.apply m hr ‹_›) hstate
    · exact absurd hstate (by simp)

end Network

end HeaderFlow


