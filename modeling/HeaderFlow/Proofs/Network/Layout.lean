import HeaderFlow.Proofs.Arena
import HeaderFlow.Proofs.Network.Registry
import HeaderFlow.Proofs.PortSet
import HeaderFlow.Proofs.Topology
import HeaderFlow.Network.Mutation

/-!
# The layout of a network

The *layout* is what flows run through: nodes, links, pipes and influences, without the flows
themselves and without what a probe remembers. **Propagation leaves the layout alone**, so what is
known about it need not be carried through the recursion. The cores of nodes are kept apart from the
pipes and influences that the nodes list, so that a change of the one says nothing about the other.

Three questions are asked of a layout, and the invariants of flows are stated in their terms only:
which wire a forward side stands for (`Layout.Runs`), which headers a rule leaves to others
(`Layout.Taken`), and what a node makes of a header that it forwards (`Layout.Turns`).

`Layout.WellFormed` and `Layout.Ordered` say that pipes and influences are recorded at both ends and
mean what they should, that nodes are found where they should be (`Registry.Agrees`) and that both
records of the links tell the same (`Topology.Mirrored`). `Layout.Wired` and `Layout.Ranked` say
that none are missing; a change breaks some of this for a while, so the exceptions are parameters.

## Soundness and completeness of the records

The two pairs are two directions. `WellFormed` and `Ordered` go from what is recorded to what it
means: an entry is there for a reason. `Wired` and `Ranked` go back: for each reason there is an
entry. Every step has to keep the first pair entirely, because the steps after it follow the
records. The second pair is made good by the change as a whole, which adds the entries one after the
other; `E` collects what is still to be added.

That there is only one entry for each reason, with exactly the pattern that it should have, is not
needed for flows to be right. It is shown separately (`Layout.Exact`, `Layout.Graded`).
-/

namespace HeaderFlow

/-- What flows run through. -/
structure Layout where
  cores : List Core
  /-- Where the nodes are found. -/
  registry : Registry
  topology : Topology
  pipes : Arena Pipe
  influences : Arena Influence
  /-- The forward sides at a node. -/
  next : NodeKey → List Handle
  /-- The backward sides at a node. -/
  prev : NodeKey → List Handle
  /-- The influences in which a node loses. -/
  lost : NodeKey → List Handle
  /-- The influences in which a node wins. -/
  won : NodeKey → List Handle
  /-- Two rules whose identifiers agree in these bits count as one place when loops are looked
  for. -/
  keyMask : UInt64
  /-- The key of the next node. -/
  nextKey : NodeKey

/-- The links. -/
def Layout.links (L : Layout) : List Link := L.topology.links

/-- What the node with a key lists, if it is there. -/
def Network.tied (net : Network) (list : Node → List Handle) (key : NodeKey) : List Handle :=
  (net.nodeAt? key).elim [] list

/-- The layout of a network. -/
def Network.layout (net : Network) : Layout where
  cores := net.nodes.map Node.core
  registry := net.registry
  topology := net.topology
  pipes := net.pipes
  influences := net.influences
  next := net.tied Node.next
  prev := net.tied Node.prev
  lost := net.tied Node.lost
  won := net.tied Node.won
  keyMask := net.settings.loopDetection.keyMask
  nextKey := net.nextKey

/-- What a node lists, by its key. -/
theorem Network.tied_of_nodeAt? {net : Network} {key : NodeKey} {n : Node}
    {list : Node → List Handle} (hn : net.nodeAt? key = some n) : net.tied list key = list n := by
  rw [tied, hn]
  rfl

namespace Layout

variable {L : Layout} {key : NodeKey} {n m : Core} {x y : Nat → Bool}

/-- The node with a key. -/
def core? (L : Layout) (key : NodeKey) : Option Core := L.cores.find? (·.key == key)

theorem core?_layout (net : Network) (key : NodeKey) :
    net.layout.core? key = (net.nodeAt? key).map Node.core := by
  rw [core?, Network.layout, List.find?_map]
  rfl

/-- A node of the network is in the layout. -/
theorem core?_of_nodeAt? {net : Network} {n : Node} (hn : net.nodeAt? key = some n) :
    net.layout.core? key = some n.core := by
  rw [core?_layout, hn]
  rfl

theorem key_of_core? (hn : L.core? key = some n) : n.key = key := by
  simpa using List.find?_some hn

/-- A node that is found is one of the nodes. -/
theorem mem_of_core? (hn : L.core? key = some n) : n ∈ L.cores := List.mem_of_find?_eq_some hn

/-- The forward side `fwd` is listed at its node and stands for the wire. -/
def Runs (L : Layout) (fwd : Handle) (w : Wire) : Prop :=
  ∃ a b, L.pipes.find? fwd = some a ∧ L.pipes.find? a.reverse = some b ∧ fwd ∈ L.next a.node ∧
    w = ⟨a.node, a.port, b.node, b.port, a.pattern⟩

/-- A side stands for one wire. -/
theorem Runs.unique {fwd : Handle} {w w' : Wire} (hw : L.Runs fwd w) (hw' : L.Runs fwd w') :
    w = w' := by
  obtain ⟨a, b, ha, hb, -, rfl⟩ := hw
  obtain ⟨a', b', ha', hb', -, rfl⟩ := hw'
  rw [ha] at ha'
  obtain rfl := Option.some.inj ha'
  rw [hb] at hb'
  obtain rfl := Option.some.inj hb'
  rfl

theorem Runs.pipe {fwd : Handle} {w : Wire} (hw : L.Runs fwd w) :
    ∃ a, L.pipes.find? fwd = some a ∧ a.pattern = w.pattern := by
  obtain ⟨a, b, ha, hb, -, rfl⟩ := hw
  exact ⟨a, ha, rfl⟩

/-- What the node with a key overwrites, if it is a rule that does. -/
def overwrite? (L : Layout) (key : NodeKey) : Option Overwrite :=
  match (L.core? key).map Core.kind with
  | some (.rule _ _ overwrite) => overwrite
  | _ => none

/-- A rule of higher priority takes the header from the rule with the key, at a port. -/
def Taken (L : Layout) (key : NodeKey) (port : Port) (x : Nat → Bool) : Prop :=
  (∃ n, L.core? key = some n ∧ n.IsRule) ∧ ∃ k ∈ L.lost key, ∃ i, L.influences.find? k = some i ∧
    port ∈ i.ports.toList ∧ i.common.Matches x

/-- The header `x` can leave the node as `y`. -/
def Turns (L : Layout) (key : NodeKey) (x y : Nat → Bool) : Prop :=
  match L.overwrite? key with
  | some w => w.mask.Turns w.value x y
  | none => y = x

/-- What counts as one place when loops are looked for, if the node is a rule. -/
def loopKey? (L : Layout) (key : NodeKey) : Option UInt64 :=
  match L.core? key with
  | some n =>
    match n.kind with
    | .rule .. => some (n.id &&& L.keyMask)
    | _ => none
  | none => none

/-! ### Well-formed layouts -/

/-- A pipe from `n` to `m`, with its two sides and their handles. -/
structure Joins (L : Layout) (fwd back : Handle) (a b : Pipe) (n m : Core) : Prop where
  front : L.pipes.find? fwd = some a
  rear : L.pipes.find? back = some b
  reverse : a.reverse = back
  obverse : b.reverse = fwd
  distinct : fwd ≠ back
  sender : L.core? a.node = some n
  receiver : L.core? b.node = some m
  next : fwd ∈ L.next a.node
  prev : back ∈ L.prev b.node
  outPort : a.port ∈ n.outPorts.toList
  inPort : b.port ∈ m.inPorts.toList
  link : ⟨a.port, b.port⟩ ∈ L.links
  /-- It carries what the one can send and the other accepts. -/
  carries : ∃ p, m.accepts = some p ∧
    ∀ x, a.pattern.Matches x ↔ p.Matches x ∧ n.sends.Matches x

/-- Nodes are as they must be and are found where they should, and pipes are recorded at both ends
and mean what they should. -/
structure WellFormed (L : Layout) : Prop where
  pipes : L.pipes.Valid
  nodup : (L.cores.map Core.key).Nodup
  fresh : ∀ n ∈ L.cores, n.key < L.nextKey
  proper : ∀ n ∈ L.cores, n.Proper
  found : L.registry.Agrees L.cores
  mirrored : L.topology.Mirrored
  next : ∀ key, ∀ fwd ∈ L.next key, ∃ back a b n m, L.Joins fwd back a b n m ∧ a.node = key
  prev : ∀ key, ∀ back ∈ L.prev key, ∃ fwd a b n m, L.Joins fwd back a b n m ∧ b.node = key
  once : ∀ key, (L.next key).Nodup
  /-- No side is both a forward and a backward one. -/
  apart : ∀ key key' h, h ∈ L.next key → h ∉ L.prev key'

/-- Wherever a port of a node is linked to a port of another that accepts something of what the
first sends, there is a pipe, except where `E` says otherwise. -/
def Wired (L : Layout) (E : NodeKey → NodeKey → Link → Prop) : Prop :=
  ∀ n ∈ L.cores, ∀ m ∈ L.cores, ∀ q ∈ n.outPorts.toList, ∀ p ∈ m.inPorts.toList,
    ⟨q, p⟩ ∈ L.links → ¬ E n.key m.key ⟨q, p⟩ → ∀ a x, m.accepts = some a → a.Matches x →
    n.sends.Matches x → ∃ fwd w, L.Runs fwd w ∧ w.sender = n.key ∧ w.outPort = q ∧
      w.receiver = m.key ∧ w.inPort = p

/-- More may be missing. -/
theorem Wired.mono {E E' : NodeKey → NodeKey → Link → Prop} (hw : L.Wired E)
    (hE : ∀ s r l, E s r l → E' s r l) : L.Wired E' := fun n hn m hm q hq p hp hl hnot ↦
  hw n hn m hm q hq p hp hl fun he ↦ hnot (hE _ _ _ he)

/-- The influence is that of the rule `m` on the rule `n` of the same table. -/
structure Outranks (L : Layout) (i : Influence) (m n : Core) : Prop where
  influencer : L.core? i.influencer = some m
  influenced : L.core? i.influenced = some n
  order : ∃ table place place' w w', m.kind = .rule table place w ∧ n.kind = .rule table place' w' ∧
    place < place'
  ports : ∀ p, p ∈ i.ports.toList ↔ p ∈ m.inPorts.toList ∧ p ∈ n.inPorts.toList
  /-- It takes what both accept. -/
  common : ∃ p q, m.accepts = some p ∧ n.accepts = some q ∧
    ∀ x, i.common.Matches x ↔ p.Matches x ∧ q.Matches x

/-- An influence of the rule `m` on the rule `n`, which both of them list. -/
structure Ranks (L : Layout) (k : Handle) (i : Influence) (m n : Core) : Prop
    extends L.Outranks i m n where
  effect : k ∈ L.won i.influencer
  loss : k ∈ L.lost i.influenced

/-- Influences are recorded at both rules and mean what they should, except for those that are about
to go. -/
structure Ordered (L : Layout) (X : Set Handle) : Prop where
  influences : L.influences.Valid
  lost : ∀ key, ∀ k ∈ L.lost key, ∃ i, L.influences.find? k = some i ∧ i.influenced = key ∧
    (k ∉ X → ∃ m n, L.Ranks k i m n)
  won : ∀ key, ∀ k ∈ L.won key, ∃ i, L.influences.find? k = some i ∧ i.influencer = key ∧
    (k ∉ X → ∃ m n, L.Ranks k i m n)
  place : ∀ n ∈ L.cores, ∀ m ∈ L.cores, ∀ table index w w', n.kind = .rule table index w →
    m.kind = .rule table index w' → n = m

/-- Of two rules of a table that share a header and a port, the one of higher priority has an
influence on the other, except where `E` says otherwise. -/
def Ranked (L : Layout) (E : NodeKey → NodeKey → Prop) : Prop :=
  ∀ n ∈ L.cores, ∀ m ∈ L.cores, ∀ table place place' w w', n.kind = .rule table place w →
    m.kind = .rule table place' w' → place' < place → ¬ E m.key n.key →
    ∀ port ∈ n.inPorts.toList, port ∈ m.inPorts.toList → ∀ p q x, n.accepts = some p →
      m.accepts = some q → p.Matches x → q.Matches x →
      ∃ k ∈ L.lost n.key, ∃ i, L.influences.find? k = some i ∧ i.influencer = m.key

theorem Ranked.mono {E E' : NodeKey → NodeKey → Prop} (hr : L.Ranked E)
    (hE : ∀ m n, E m n → E' m n) : L.Ranked E' :=
  fun n hn m hm table place place' w w' hkn hkm hlt hnot ↦
    hr n hn m hm table place place' w w' hkn hkm hlt fun he ↦ hnot (hE _ _ he)

/-! ### Two aspects

Pipes and influences have nothing to do with each other. -/

section

variable {L' : Layout} {X : Set Handle}

/-- Which rule outranks which depends on the nodes only. -/
theorem Outranks.congr {i : Influence} (hr : L.Outranks i m n) (hcores : L'.cores = L.cores) :
    L'.Outranks i m n :=
  { hr with
    influencer := by rw [core?, hcores]; exact hr.influencer
    influenced := by rw [core?, hcores]; exact hr.influenced }

theorem Ranks.congr {k : Handle} {i : Influence} (hr : L.Ranks k i m n)
    (hcores : L'.cores = L.cores) (hlost : L'.lost = L.lost) (hwon : L'.won = L.won) :
    L'.Ranks k i m n :=
  { hr.toOutranks.congr hcores with
    effect := hwon ▸ hr.effect
    loss := hlost ▸ hr.loss }

/-- The order of influences does not depend on pipes and links. -/
theorem Ordered.congr (ho : L.Ordered X) (hcores : L'.cores = L.cores)
    (hinfluences : L'.influences = L.influences) (hlost : L'.lost = L.lost)
    (hwon : L'.won = L.won) : L'.Ordered X := by
  refine ⟨hinfluences ▸ ho.influences, fun key k hk ↦ ?_, fun key k hk ↦ ?_, hcores ▸ ho.place⟩
  · obtain ⟨i, hi, hkey, hr⟩ := ho.lost key k (hlost ▸ hk)
    exact ⟨i, hinfluences ▸ hi, hkey, fun hX ↦
      (hr hX).imp fun m ⟨n, hr⟩ ↦ ⟨n, hr.congr hcores hlost hwon⟩⟩
  · obtain ⟨i, hi, hkey, hr⟩ := ho.won key k (hwon ▸ hk)
    exact ⟨i, hinfluences ▸ hi, hkey, fun hX ↦
      (hr hX).imp fun m ⟨n, hr⟩ ↦ ⟨n, hr.congr hcores hlost hwon⟩⟩

theorem Ranked.congr {E : NodeKey → NodeKey → Prop} (hr : L.Ranked E) (hcores : L'.cores = L.cores)
    (hinfluences : L'.influences = L.influences) (hlost : L'.lost = L.lost) : L'.Ranked E := by
  rw [Ranked, hcores, hinfluences, hlost]
  exact hr

end

/-! ### Consequences -/

/-- With different keys, every node is found by its own. -/
theorem core?_of_mem (hnodup : (L.cores.map Core.key).Nodup) (hn : n ∈ L.cores) :
    L.core? n.key = some n := by
  rw [core?]
  generalize L.cores = cs at hnodup hn
  induction cs with
  | nil => exact absurd hn List.not_mem_nil
  | cons c cs ih =>
    rw [List.map_cons, List.nodup_cons] at hnodup
    rw [List.find?_cons]
    rcases List.mem_cons.1 hn with rfl | hn
    · simp
    · have hne : c.key ≠ n.key := fun he ↦ hnodup.1 (he ▸ List.mem_map_of_mem hn)
      rw [beq_eq_false_iff_ne.2 hne, ih hnodup.2 hn]

/-- A backward side stands for no wire. -/
theorem Joins.not_runs {fwd back : Handle} {a b : Pipe} {w : Wire} (hL : L.WellFormed)
    (hj : L.Joins fwd back a b n m) : ¬ L.Runs back w := by
  rintro ⟨a', -, -, -, hmem, -⟩
  exact hL.apart _ _ _ hmem hj.prev

/-- A pipe stands for a wire. -/
theorem Joins.runs {fwd back : Handle} {a b : Pipe} (hj : L.Joins fwd back a b n m) :
    L.Runs fwd ⟨a.node, a.port, b.node, b.port, a.pattern⟩ :=
  ⟨a, b, hj.front, hj.reverse ▸ hj.rear, hj.next, rfl⟩

/-- Every forward side that stands for a wire is that of a pipe. -/
theorem WellFormed.joins (hL : L.WellFormed) {fwd : Handle} {w : Wire} (hw : L.Runs fwd w) :
    ∃ back a b n m, L.Joins fwd back a b n m ∧ w = ⟨a.node, a.port, b.node, b.port, a.pattern⟩ := by
  obtain ⟨a, b, ha, hb, hmem, rfl⟩ := id hw
  obtain ⟨back, a', b', n, m, hj, -⟩ := hL.next a.node fwd hmem
  exact ⟨back, a', b', n, m, hj, hw.unique hj.runs⟩

/-- **A wire leads from an exit of its sender to an entrance of its receiver**, along a link, and
carries what the two have in common. -/
theorem WellFormed.ends (hL : L.WellFormed) {fwd : Handle} {w : Wire} (hw : L.Runs fwd w) :
    ∃ n m p, L.core? w.sender = some n ∧ L.core? w.receiver = some m ∧
      fwd ∈ L.next w.sender ∧ w.outPort ∈ n.outPorts.toList ∧ w.inPort ∈ m.inPorts.toList ∧
      m.accepts = some p ∧ ∀ x, w.pattern.Matches x ↔ p.Matches x ∧ n.sends.Matches x := by
  obtain ⟨back, a, b, n, m, hj, rfl⟩ := hL.joins hw
  obtain ⟨p, hp, hx⟩ := hj.carries
  exact ⟨n, m, p, hj.sender, hj.receiver, hj.next, hj.outPort, hj.inPort, hp, hx⟩

/-- **No wire leads away from a probe.** -/
theorem WellFormed.not_runs (hL : L.WellFormed) (hn : L.core? key = some n)
    (hkind : n.kind = .probe) {fwd : Handle} {w : Wire} (hw : L.Runs fwd w) : w.sender ≠ key := by
  intro hsender
  obtain ⟨n', m, p, hn', -, -, hout, -⟩ := hL.ends hw
  rw [hsender, hn] at hn'
  obtain rfl := Option.some.inj hn'
  have hproper := hL.proper n (mem_of_core? hn)
  rw [Core.Proper, hkind] at hproper
  exact absurd hout (hproper.1 ▸ List.not_mem_nil)

/-- Nothing is taken from a node that is not a rule. -/
theorem not_taken (hn : L.core? key = some n) (hkind : ¬ n.IsRule) {port : Port} :
    ¬ L.Taken key port x := by
  rintro ⟨⟨n', hn', hr⟩, -⟩
  rw [hn] at hn'
  obtain rfl := Option.some.inj hn'
  exact hkind hr

/-- What a rule overwrites. -/
theorem overwrite?_of_rule {table : TableId} {index : UInt32} {w : Option Overwrite}
    (hn : L.core? key = some n) (hr : n.kind = .rule table index w) : L.overwrite? key = w := by
  simp [overwrite?, hn, hr]

/-- Sources and probes overwrite nothing. -/
theorem overwrite?_eq_none (hn : L.core? key = some n) (hkind : ¬ n.IsRule) :
    L.overwrite? key = none := by
  rw [overwrite?, hn]
  cases hk : n.kind with
  | rule table index w => exact absurd ⟨table, index, w, hk⟩ hkind
  | source => simp [hk]
  | probe => simp [hk]

/-- Where nothing is overwritten, headers leave as they came. -/
theorem turns_of_eq_none (hkey : L.overwrite? key = none) : L.Turns key x y ↔ y = x := by
  rw [Turns, hkey]

end Layout

end HeaderFlow
