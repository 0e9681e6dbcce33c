import HeaderFlow.Network.Mutation
import HeaderFlow.Proofs.Casting
import HeaderFlow.Proofs.Probe
import HeaderFlow.Proofs.Network.TwinRegistry

/-!
# Twin networks

Two networks are *twins* if each part of the first has a counterpart in the second that says the
same in other words: under other handles, of headers of another length, within wider limits. Some
sources can be *lost*, which the second network never had. What belongs to them, their pipes and all
flows that came from them, is lost with them, and **nothing that stays points to something that is
lost**, except for the lists of what is at a node.

A `Comparison` says which words go with which and stays the same for a whole run; a `Naming` says
which handles do and grows. A comparison can be exact. Then nothing is lost and the handles are the
same.

## What comparisons are for

One relation serves for all theorems that compare two runs, so that the engine has to be gone
through only once:

* a run with headers that are widened at another time, where words go with longer words
  (`Casting.entire`);
* a run with wider limits or without a time limit, where all is the same but the budget
  (`Budget.Relaxes`);
* a run without a source that is removed in the end, where the source is lost and handles differ.

What the second run is asked for besides is written down in the fields of the comparison: whether
the latest change is known to be the same (`events`), how time is told (`Timing`), what nodes are
called there (`rename`), and which identifiers can be told apart (`placed`, `source`, `owner`,
`gone`).

## The relation

`Twins` is put together from relations of parts, each of which lists the fields of the part. A list
in the first network is *culled* in the second: what is kept stands there in the same order, and
what is left out is lost. For lists that never have anything lost in them, such as the children of a
kept flow, nothing is left out.

All parts grow with the naming: what stands for each other under some names does so under more (the
lemmas called `grow`). Storing something adds a name, so this is used at each such step.
-/

namespace HeaderFlow

/-! ### How networks are compared -/

/-- The two sides of a pipe. -/
inductive PipeSide where
  | front
  | rear

/-- What goes with the nodes, pipes and flows of a network in its twin. -/
structure Naming where
  node : Lexicon NodeKey Unit
  pipe : Lexicon Handle PipeSide
  flow : Lexicon Handle Unit

/-- More goes with more. -/
structure Naming.Grows (ν ν' : Naming) : Prop where
  node : ν.node.Grows ν'.node
  pipe : ν.pipe.Grows ν'.pipe
  flow : ν.flow.Grows ν'.flow

/-- A naming has all its own names. -/
theorem Naming.Grows.refl (ν : Naming) : ν.Grows ν := ⟨.refl _, .refl _, .refl _⟩

/-- Names are kept through two steps. -/
theorem Naming.Grows.trans {ν ν' ν'' : Naming} (h : ν.Grows ν') (h' : ν'.Grows ν'') : ν.Grows ν'' :=
  ⟨h.node.trans h'.node, h.pipe.trans h'.pipe, h.flow.trans h'.flow⟩

/-- How time is told in the second of two runs. -/
inductive Timing where
  /-- Changes are timed as in the first run, by the same clock. -/
  | same
  /-- There is no limit of time. -/
  | untimed
  /-- Changes are timed by a clock of its own, so they can be broken off when those of the first run
  are not. -/
  | own

/-- What the timing says of the budgets of both runs. -/
def Timing.Agrees (b b' : Budget) : Timing → Prop
  | .same => b'.timeout = b.timeout ∧ b'.clock = b.clock ∧ b'.changes = b.changes ∧
    b'.deadline = b.deadline
  | .untimed => b'.timeout = none ∧ b'.deadline = none
  | .own => True

/-- What the networks of two runs are to each other. -/
structure Comparison (n m : Nat) extends Casting n m where
  /-- Nothing is lost, and handles and identifiers are the same. -/
  exact : Prop
  /-- The latest change is the same too. -/
  events : Prop
  timing : Timing
  /-- What a source or a probe is called in the second run. -/
  rename : NodeId → NodeId
  /-- What rules are called. -/
  placed : NodeId → Prop
  /-- What sources are called in the first run. -/
  source : NodeId → Prop
  /-- Which source or probe has which identifier in the first run. -/
  owner : NodeKey → NodeId → Prop
  /-- The sources that are lost. -/
  gone : NodeId → Prop
  exact_of_events : events → exact
  exact_of_timing : timing = .same → exact
  rename_of_exact : exact → ∀ id, rename id = id
  rename_injective : ∀ id id', ¬ gone id → ¬ gone id' → rename id = rename id' → id = id'

/-- The comparison under which nothing is lost, and handles and identifiers are the same. -/
def Casting.entire (C : Casting n m) (events : Prop) (timing : Timing) : Comparison n m :=
  { C with
    exact := True
    events := events
    timing := timing
    rename := id
    placed := fun _ ↦ True
    source := fun _ ↦ True
    owner := fun _ _ ↦ True
    gone := fun _ ↦ False
    exact_of_events := fun _ ↦ trivial
    exact_of_timing := fun _ ↦ trivial
    rename_of_exact := fun _ _ ↦ rfl
    rename_injective := fun _ _ _ _ h ↦ h }

/-- The budgets have been used alike, and the second has wider limits. -/
structure Budget.Relaxes (exact : Prop) (timing : Timing) (b b' : Budget) : Prop where
  maxDepth : b.maxDepth ≤ b'.maxDepth
  maxVisits : b'.maxVisits = 0 ∨ 0 < b.maxVisits ∧ b.maxVisits ≤ b'.maxVisits
  depth : b'.depth ≤ b.depth
  visits : b'.visits ≤ b.visits
  same : exact → b'.depth = b.depth ∧ b'.visits = b.visits
  time : timing.Agrees b b'

/-- The settings differ in the limits at most. -/
structure Settings.Alike (s s' : Settings) : Prop where
  loopDetection : s'.loopDetection = s.loopDetection
  checkShadow : s'.checkShadow = s.checkShadow
  checkBlackholes : s'.checkBlackholes = s.checkBlackholes
  anomalies : s'.anomalies = s.anomalies

/-- A flow has a greater rank than the one it came from, and a smaller one than those that came from
it. -/
def Ranked (rank : Handle → Nat) (F : Arena Flow) : Prop :=
  ∀ h f, F.find? h = some f →
    (∀ p, f.parent = some p → rank p < rank h) ∧ ∀ c ∈ f.children, rank h < rank c

/-- Only a node that is a probe has one. -/
theorem Node.role_of_probe? {k : Node} {p : Probe} (hp : k.probe? = some p) :
    k.role = .probe p := by
  rw [Node.probe?] at hp
  split at hp
  · rename_i hrole
    rw [hrole, Option.some.inj hp]
  · cases hp

namespace Comparison

variable {n m : Nat} (T : Comparison n m) (ν : Naming)

/-! ### Parts that go together -/

/-- The rules are at the same place, overwrite alike, and have the same influences. -/
structure Rules (r r' : Rule) : Prop where
  table : r'.table = r.table
  index : r'.index = r.index
  overwrite : Option.Rel (fun w w' ↦ T.mask w.mask w'.mask ∧ T.pattern w.value w'.value)
    r.overwrite r'.overwrite
  influencedBy : r'.influencedBy = r.influencedBy
  effectOn : r'.effectOn = r.effectOn

/-- The probes ask the same. The second one has noted the same, except for flows that are lost, and
has counted at least the deciding flows that it has noted. -/
structure Probes (p p' : Probe) : Prop where
  mode : p'.mode = p.mode
  state : p'.state = p.state
  filter : p.filter.Alike T.asked p'.filter
  test : p.test.Alike T.asked p'.test
  results : Culled (fun e e' ↦ ν.flow.Kept e.1 e'.1 ∧ e'.2 = e.2) (fun e ↦ ν.flow.Lost () e.1)
    p.results p'.results
  counted : p'.noted ≤ p'.deciding
  deciding : T.exact → p'.deciding = p.deciding

/-- The nodes are of one type, and what they have for it goes with each other. -/
inductive Roles : Role → Role → Prop
  | rule {r r' : Rule} : T.Rules r r' → Roles (.rule r) (.rule r')
  | source : Roles .source .source
  | probe {p p' : Probe} : T.Probes ν p p' → Roles (.probe p) (.probe p')

/-- What a node and its counterpart are called. Rules are called the same. -/
inductive Called : Role → NodeKey → NodeId → NodeId → Prop
  | rule {r : Rule} {key : NodeKey} : T.placed (ruleId r.table r.index) →
    Called (.rule r) key (ruleId r.table r.index) (ruleId r.table r.index)
  | source {key : NodeKey} {id : NodeId} : ¬ T.gone id → T.owner key id → T.source id →
    Called .source key id (T.rename id)
  | probe {p : Probe} {key : NodeKey} {id : NodeId} : ¬ T.gone id → T.owner key id →
    Called (.probe p) key id (T.rename id)

/-- What is called differently in the first run is called differently in the second. -/
def Discerns : Prop :=
  ∀ r key id s key' id' x, T.Called r key id x → T.Called s key' id' x → id = id'

/-- A node and its counterpart: they accept and send alike, at the same ports, and what is at one of
them is at the other, what is lost apart. -/
structure Nodes (n n' : Node) : Prop where
  key : ν.node.Kept n.key n'.key
  called : T.Called n.role n.key n.id n'.id
  role : T.Roles ν n.role n'.role
  accepts : Option.Rel T.pattern n.accepts n'.accepts
  sends : T.pattern n.sends n'.sends
  inPorts : n'.inPorts = n.inPorts
  outPorts : n'.outPorts = n.outPorts
  inputLayer : n'.inputLayer = n.inputLayer
  outputLayer : n'.outputLayer = n.outputLayer
  next : Culled ν.pipe.Kept (fun _ ↦ False) n.next n'.next
  prev : Culled ν.pipe.Kept (ν.pipe.Lost .rear) n.prev n'.prev
  flows : Culled ν.flow.Kept (ν.flow.Lost ()) n.flows n'.flows

/-- A source that is lost. -/
structure LostNode (n : Node) : Prop where
  key : ν.node.Lost () n.key
  gone : T.gone n.id
  role : n.role = .source
  accepts : n.accepts = none
  inPorts : n.inPorts = .empty
  next : ∀ h ∈ n.next, ν.pipe.Lost .front h
  prev : n.prev = []
  flows : ∀ h ∈ n.flows, ν.flow.Lost () h

/-- A side of a pipe and its counterpart. -/
structure Pipes (p p' : Pipe) : Prop where
  node : ν.node.Kept p.node p'.node
  port : p'.port = p.port
  pattern : T.pattern p.pattern p'.pattern
  reverse : ν.pipe.Kept p.reverse p'.reverse

/-- A side of a pipe that leaves a lost source. -/
def LostPipe : PipeSide → Pipe → Prop
  | .front, p => ν.node.Lost () p.node ∧ ∃ side, ν.pipe.Lost side p.reverse
  | .rear, p => (∃ key, ν.node.Kept p.node key) ∧ ν.pipe.Lost .front p.reverse

/-- An influence and its counterpart, between counterparts. -/
structure Influences (i i' : Influence) : Prop where
  influencer : ν.node.Kept i.influencer i'.influencer
  influenced : ν.node.Kept i.influenced i'.influenced
  common : T.pattern i.common i'.common
  ports : i'.ports = i.ports

/-- **A flow and its counterpart**: they have the same headers, are at the same node, and came from
counterparts. Everything that came from a kept flow is kept. -/
structure Flows (f f' : Flow) : Prop where
  node : ν.node.Kept f.node f'.node
  source : ν.flow.Kept f.source f'.source
  input : T.space f.input f'.input
  processed : Option.Rel T.space f.processed f'.processed
  port : f'.port = f.port
  pipe : Option.Rel ν.pipe.Kept f.pipe f'.pipe
  parent : Option.Rel ν.flow.Kept f.parent f'.parent
  children : Culled ν.flow.Kept (fun _ ↦ False) f.children f'.children
  looped : f'.looped = f.looped

/-- A flow of a lost source. -/
structure LostFlow (f : Flow) : Prop where
  node : ∃ x, ν.node f.node = some x
  source : ν.flow.Lost () f.source
  parent : ∀ p, f.parent = some p → ν.flow.Lost () p
  children : ∀ c ∈ f.children, ν.flow.Lost () c
  root : f.parent = none → ν.node.Lost () f.node

/-! ### Twins -/

/-- **The networks are twins.** Settings differ in limits only, links are the same, tables and ports
lead to counterparts, and each node, flow, pipe and influence has its counterpart or is lost. -/
structure Twins (net net' : Network) : Prop where
  bytes : net.bytes = n
  bytes' : net'.bytes = m
  settings : net.settings.Alike net'.settings
  tables : List.Forall₂ (Table.Alike ν.node) net.tables net'.tables
  unrenamed : ∀ t ∈ net.tables,
    t.Unrenamed ν.node (net.nodes.map Node.name) (net'.nodes.map Node.name)
  topology : net'.topology = net.topology
  nextId : net'.nextId = T.rename net.nextId
  consistent : net'.consistent = net.consistent
  events : T.events → net'.lastEvent = net.lastEvent
  budget : net.budget.Relaxes T.exact T.timing net'.budget
  nodes : Culled (T.Nodes ν) (T.LostNode ν) net.nodes net'.nodes
  nodup : (net.nodes.map Node.key).Nodup
  directory : net.directory.Alike ν.node net'.directory
  ids : net.directory.Addresses (net.nodes.map Node.name)
  ids' : net'.directory.Addresses (net'.nodes.map Node.name)
  reaches : T.Discerns →
    net.directory.Reaches ν.node net'.directory (net.nodes.map Node.name) (net'.nodes.map Node.name)
  registry : T.exact → net'.registry = net.registry
  keys : ∀ k x, ν.node k = some x → k < net.nextKey
  keys' : ∀ k k', ν.node.Kept k k' → k' < net'.nextKey
  injective : ν.node.Injective
  sameKeys : T.exact → net'.nextKey = net.nextKey ∧ ∀ k x, ν.node k = some x → x = .kept k
  pipes : Arena.Pairs T.exact ν.pipe (T.Pipes ν) (LostPipe ν) net.pipes net'.pipes
  influences : Arena.Alike (T.Influences ν) net.influences net'.influences
  flows : Arena.Pairs T.exact ν.flow (T.Flows ν) (fun _ ↦ LostFlow ν) net.flows net'.flows
  ranked : ∃ rank, Ranked rank net.flows

variable {T ν} {ν' : Naming}

/-! ### What nodes have in common -/

/-- A rule is called by its place and by nothing else. -/
theorem Called.of_place {r s : Rule} {key : NodeKey} {id id' : NodeId}
    (h : T.Called (.rule r) key id id') (hplace : s.table = r.table ∧ s.index = r.index) :
    T.Called (.rule s) key id id' := by
  cases h with
  | rule hplaced =>
    rw [← hplace.1, ← hplace.2] at hplaced ⊢
    exact .rule hplaced

/-- What a probe is called has nothing to do with its notes. -/
theorem Called.of_probe {p q : Probe} {key : NodeKey} {id id' : NodeId}
    (h : T.Called (.probe p) key id id') : T.Called (.probe q) key id id' := by
  cases h with
  | probe hstays howner => exact .probe hstays howner

/-- What is called by a place is called so in both runs, and what is not has an owner. -/
theorem Called.name_cases {role : Role} {key : NodeKey} {id x : NodeId}
    (h : T.Called role key id x) :
    T.placed x ∧ x = id ∨ ¬ T.gone id ∧ T.owner key id ∧ x = T.rename id := by
  cases h with
  | rule hplaced => exact .inl ⟨hplaced, rfl⟩
  | source hstays howner => exact .inr ⟨hstays, howner, rfl⟩
  | probe hstays howner => exact .inr ⟨hstays, howner, rfl⟩

/-- If everything is called the same, nothing is mixed up. -/
theorem discerns_of_rename (hrename : ∀ id, T.rename id = id) : T.Discerns := by
  have hsame : ∀ r key id x, T.Called r key id x → x = id := fun r key id x h ↦
    h.name_cases.elim (·.2) fun ⟨_, _, hx⟩ ↦ hx.trans (hrename id)
  intro r key id s key' id' x h h'
  exact (hsame _ _ _ _ h).symm.trans (hsame _ _ _ _ h')

namespace Nodes

variable {k k' : Node}

/-- The probe has noted more. -/
theorem setProbe {p q q' : Probe} (hk : T.Nodes ν k k') (hp : k.probe? = some p)
    (hq : T.Probes ν q q') : T.Nodes ν { k with role := .probe q } { k' with role := .probe q' } :=
  { hk with
    called := (Node.role_of_probe? hp ▸ hk.called).of_probe
    role := .probe hq }

/-- If nothing is renamed, a node and its counterpart have the same identifier. -/
theorem id_eq (hk : T.Nodes ν k k') (hrename : ∀ id, T.rename id = id) : k'.id = k.id := by
  obtain ⟨-, hid⟩ | ⟨-, -, hid⟩ := hk.called.name_cases
  · exact hid
  · exact hid.trans (hrename k.id)

/-- Sources and probes are called by what goes with their names. -/
theorem id_of_type (hk : T.Nodes ν k k') (htype : k.type ≠ .rule) :
    k'.id = T.rename k.id ∧ ¬ T.gone k.id ∧ T.owner k.key k.id := by
  have hcalled := hk.called
  rw [Node.type] at htype
  generalize k.role = r, k.id = id, k'.id = id' at hcalled htype
  cases hcalled with
  | rule => exact absurd rfl htype
  | source hstays howner => exact ⟨rfl, hstays, howner⟩
  | probe hstays howner => exact ⟨rfl, hstays, howner⟩

/-- A source that is kept is called as sources are. -/
theorem source (hk : T.Nodes ν k k') (hrole : k.role = .source) : T.source k.id := by
  have hcalled := hk.called
  rw [hrole] at hcalled
  generalize k.id = id, k'.id = id' at hcalled
  cases hcalled with
  | source _ _ hsource => exact hsource

/-- Rules are called by their places. -/
theorem id_of_rule {r : Rule} (hk : T.Nodes ν k k') (hr : k.rule? = some r) :
    k.id = ruleId r.table r.index ∧ k'.id = k.id := by
  have hcalled := hk.called
  rw [Node.rule?] at hr
  generalize k.role = role, k.id = id, k'.id = id' at hcalled hr
  cases hcalled with
  | rule =>
    obtain rfl := Option.some.inj hr
    exact ⟨rfl, rfl⟩
  | source => cases hr
  | probe => cases hr

/-- A node and its counterpart are of one type. -/
theorem type_eq (hk : T.Nodes ν k k') : k'.type = k.type := by
  have hrole := hk.role
  rw [Node.type, Node.type]
  generalize k.role = r at hrole
  generalize k'.role = r' at hrole
  cases hrole <;> rfl

/-- A node has a rule if and only if its counterpart has. -/
theorem rule? (hk : T.Nodes ν k k') : Option.Rel T.Rules k.rule? k'.rule? := by
  have hrole := hk.role
  rw [Node.rule?, Node.rule?]
  generalize k.role = r at hrole
  generalize k'.role = r' at hrole
  cases hrole with
  | rule h => exact .some h
  | source => exact .none
  | probe => exact .none

/-- A node is a probe if and only if its counterpart is. -/
theorem probe? (hk : T.Nodes ν k k') : Option.Rel (T.Probes ν) k.probe? k'.probe? := by
  have hrole := hk.role
  rw [Node.probe?, Node.probe?]
  generalize k.role = r at hrole
  generalize k'.role = r' at hrole
  cases hrole with
  | rule => exact .none
  | source => exact .none
  | probe h => exact .some h

/-- A rule and its counterpart are in the same table. -/
theorem table?_eq (hk : T.Nodes ν k k') : k'.table? = k.table? := by
  have hrule := hk.rule?
  rw [Node.table?, Node.table?]
  generalize k.rule? = o at hrule
  generalize k'.rule? = o' at hrule
  cases hrule with
  | some h => exact congrArg some h.table
  | none => rfl

/-- **A node and its counterpart are found at the same places.** -/
theorem samePlace (hk : T.Nodes ν k k') : k.SamePlace k' where
  inPorts := hk.inPorts
  outPorts := hk.outPorts
  type := hk.type_eq
  rule := optionRel_imp hk.rule? fun _ _ hr ↦ ⟨hr.table, hr.index⟩

end Nodes

/-- A lost source is no probe. -/
theorem LostNode.probe? {k : Node} (hk : T.LostNode ν k) : k.probe? = none := by
  rw [Node.probe?, hk.role]

/-- A lost source is no rule. -/
theorem LostNode.rule? {k : Node} (hk : T.LostNode ν k) : k.rule? = none := by
  rw [Node.rule?, hk.role]

/-! ### More names -/

theorem Probes.grow {p p' : Probe} (h : T.Probes ν p p') (hν : ν.Grows ν') : T.Probes ν' p p' :=
  { h with results := h.results.imp (fun _ _ he ↦ ⟨he.1.grow hν.flow, he.2⟩) fun _ he ↦
    he.grow hν.flow }

theorem Roles.grow {r r' : Role} (h : T.Roles ν r r') (hν : ν.Grows ν') : T.Roles ν' r r' := by
  cases h with
  | rule hr => exact .rule hr
  | source => exact .source
  | probe hp => exact .probe (hp.grow hν)

theorem Nodes.grow {k k' : Node} (h : T.Nodes ν k k') (hν : ν.Grows ν') : T.Nodes ν' k k' :=
  { h with
    key := h.key.grow hν.node
    role := h.role.grow hν
    next := h.next.imp (fun _ _ hh ↦ hh.grow hν.pipe) fun _ hf ↦ hf
    prev := h.prev.imp (fun _ _ hh ↦ hh.grow hν.pipe) fun _ hh ↦ hh.grow hν.pipe
    flows := h.flows.imp (fun _ _ hh ↦ hh.grow hν.flow) fun _ hh ↦ hh.grow hν.flow }

theorem LostNode.grow {k : Node} (h : T.LostNode ν k) (hν : ν.Grows ν') : T.LostNode ν' k :=
  { h with
    key := h.key.grow hν.node
    next := fun g hg ↦ (h.next g hg).grow hν.pipe
    flows := fun g hg ↦ (h.flows g hg).grow hν.flow }

theorem Pipes.grow {p p' : Pipe} (h : T.Pipes ν p p') (hν : ν.Grows ν') : T.Pipes ν' p p' :=
  { h with node := h.node.grow hν.node, reverse := h.reverse.grow hν.pipe }

theorem lostPipe_grow {side : PipeSide} {p : Pipe} (h : LostPipe ν side p) (hν : ν.Grows ν') :
    LostPipe ν' side p := by
  cases side with
  | front => exact ⟨h.1.grow hν.node, h.2.imp fun _ hs ↦ hs.grow hν.pipe⟩
  | rear => exact ⟨h.1.imp fun _ hk ↦ hk.grow hν.node, h.2.grow hν.pipe⟩

theorem Influences.grow {i i' : Influence} (h : T.Influences ν i i') (hν : ν.Grows ν') :
    T.Influences ν' i i' :=
  { h with influencer := h.influencer.grow hν.node, influenced := h.influenced.grow hν.node }

theorem Flows.grow {f f' : Flow} (h : T.Flows ν f f') (hν : ν.Grows ν') : T.Flows ν' f f' :=
  { h with
    node := h.node.grow hν.node
    source := h.source.grow hν.flow
    pipe := optionRel_imp h.pipe fun _ _ hh ↦ hh.grow hν.pipe
    parent := optionRel_imp h.parent fun _ _ hh ↦ hh.grow hν.flow
    children := h.children.imp (fun _ _ hh ↦ hh.grow hν.flow) fun _ hf ↦ hf }

theorem LostFlow.grow {f : Flow} (h : LostFlow ν f) (hν : ν.Grows ν') : LostFlow ν' f where
  node := h.node.imp fun _ hx ↦ hν.node _ _ hx
  source := h.source.grow hν.flow
  parent p hp := (h.parent p hp).grow hν.flow
  children c hc := (h.children c hc).grow hν.flow
  root hp := (h.root hp).grow hν.node

end Comparison

end HeaderFlow
