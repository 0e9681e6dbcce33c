import HeaderFlow.Proofs.Network.TwinPriority
import HeaderFlow.Proofs.Network.TwinWiring

/-!
# Changes of twin networks

A change of a network is tracked by the same change of its twin, put in the words of the twin: with
patterns and spaces that stand for each other, and with the names that sources and probes have
there. **Adding or removing a lost source is tracked by nothing.**

This module has what all changes share. It says when an argument of one change goes with an argument
of the other (`Fits`, `MaskFits`, `SpaceFits`, `RuleSpecs`, `ProbeSpecs`), and what adding and
removing a node, launching the headers of a source and starting a probe come to in both networks.
`TwinChanges` puts the changes together from it.

## Names

Nodes are looked up by identifiers, and these need not say which node is meant: a source and a probe
get theirs from one counter, but a rule is called by its table and its index, which can give the
same number. The node that was entered last is found. Two runs may find different ones when a lost
source is in the way. So there are three ways to know that a node and its counterpart are found by
names that go with each other:

* nothing is mixed up, as what is called differently in the first run is so in the second
  (`Twins.meets_of_discerns`);
* a rule is asked for and found in both networks, and no two rules are at one place
  (`Twins.meets_rule`);
* a source or a probe is asked for and found in both, and one node only goes with its identifier
  (`Twins.meets_of_owner`).
-/

namespace HeaderFlow

open Checked (tracks_ok)
open Engine

variable {α β : Type} {n m : Nat} {T : Comparison n m} {ν ν' : Naming} {net net' : Network}
  {key key' : NodeKey} {k k' : Node} {id : NodeId} {p p' : Pattern} {s s' : Space} {h h' : Handle}

/-! ### Looking things up -/

/-- What is found by an identifier is there. -/
theorem Network.mem_of_expect {type : NodeType} {expected : ExpectedRole}
    (hk : net.expect id type expected = .ok k) :
    k ∈ net.nodes ∧ k.type = type ∧ net.directory.ids[id]? = some k.key := by
  obtain ⟨hfind, htype⟩ := Network.expect_eq_ok.1 hk
  obtain ⟨key, hid, hkey⟩ := Option.bind_eq_some_iff.1 hfind
  obtain ⟨hmem, rfl⟩ := Engine.nodeAt?_eq_some hkey
  exact ⟨hmem, htype, hid⟩

/-- What is found by an identifier has it, if no two nodes have the same key. -/
theorem Network.id_of_expect {type : NodeType} {expected : ExpectedRole}
    (hnodup : (net.nodes.map Node.key).Nodup)
    (hids : net.directory.Addresses (net.nodes.map Node.name))
    (hk : net.expect id type expected = .ok k) : k.id = id := by
  obtain ⟨hmem, -, hid⟩ := Network.mem_of_expect hk
  obtain ⟨l, hl, hname⟩ := List.mem_map.1 (hids id k.key hid)
  obtain ⟨hkey, hlid⟩ := Prod.mk.inj hname
  rw [← Engine.eq_of_key_eq hnodup hl hmem hkey, hlid]

/-- What succeeds after a look-up has found something. -/
theorem Network.expect_of_ok {type : NodeType} {expected : ExpectedRole}
    {change : Node → Outcome α} {a : α} (hok : (match net.expect id type expected with
      | .error e => Outcome.refused net e
      | .ok k => change k).result = .ok a) : ∃ k, net.expect id type expected = .ok k := by
  cases hk : net.expect id type expected with
  | error e =>
    rw [hk] at hok
    cases hok
  | ok k => exact ⟨k, rfl⟩

/-- A node that is of the type of rules has a rule. -/
theorem Node.exists_rule? (htype : k.type = .rule) : ∃ r, k.rule? = some r := by
  rw [Node.type] at htype
  rw [Node.rule?]
  cases hrole : k.role with
  | rule r => exact ⟨r, rfl⟩
  | source => simp [hrole] at htype
  | probe p => simp [hrole] at htype

/-- The place of a rule can be read off its identifier. -/
theorem toNat_ruleId (table : TableId) (index : UInt32) :
    (ruleId table index).toNat = table.toNat * 2 ^ 32 + index.toNat := by
  have hlt := table.toNat_lt
  have hlt' := index.toNat_lt
  rw [ruleId, UInt64.toNat_add, UInt64.toNat_shiftLeft, UInt32.toNat_toUInt64,
    UInt32.toNat_toUInt64]
  have hshift : (32 : UInt64).toNat % 64 = 32 := by decide
  rw [hshift, Nat.shiftLeft_eq]
  omega

/-- The identifier of a rule says where it is. -/
theorem ruleId_injective {table table' : TableId} {index index' : UInt32}
    (h : ruleId table index = ruleId table' index') : table = table' ∧ index = index' := by
  have hnat := congrArg UInt64.toNat h
  rw [toNat_ruleId, toNat_ruleId] at hnat
  have := index.toNat_lt
  have := index'.toNat_lt
  exact ⟨UInt32.toNat_inj.1 (by omega), UInt32.toNat_inj.1 (by omega)⟩

namespace Comparison

/-! ### Arguments -/

/-- If the pattern has the right length, it stands for another that has. -/
def Fits (T : Comparison n m) (p p' : Pattern) : Prop := p.bytes = n → T.pattern p p' ∧ p'.bytes = m

/-- The same for what a rule overwrites. -/
def MaskFits (T : Comparison n m) (p p' : Pattern) : Prop :=
  p.bytes = n → T.mask p p' ∧ p'.bytes = m

/-- If the space has the right length, it stands for another that has. -/
def SpaceFits (T : Comparison n m) (s s' : Space) : Prop :=
  s.bytes = n → T.space s s' ∧ s'.bytes = m

/-- The same rule is to be added. -/
structure RuleSpecs (T : Comparison n m) (r r' : RuleSpec) : Prop where
  table : r'.table = r.table
  index : r'.index = r.index
  inPorts : r'.inPorts = r.inPorts
  outPorts : r'.outPorts = r.outPorts
  accepts : T.Fits r.accepts r'.accepts
  mask : Option.Rel T.MaskFits r.mask r'.mask
  value : Option.Rel T.Fits r.value r'.value

/-- The same probe is to be added. -/
structure ProbeSpecs (T : Comparison n m) (r r' : ProbeSpec) : Prop where
  mode : r'.mode = r.mode
  filter : (r.filter.enlarge n).Alike T.asked (r'.filter.enlarge m)
  test : (r.test.enlarge n).Alike T.asked (r'.test.enlarge m)
  ports : r'.ports = r.ports
  accepts : Option.Rel T.Fits r.accepts r'.accepts

/-! ### Nodes -/

/-- **New nodes go with each other** if what they accept and send does. -/
theorem nodes_unconnected {role role' : Role} {accepts accepts' : Option Pattern}
    {sends sends' : Pattern} {inPorts outPorts : PortSet} {inputLayer outputLayer : Bool}
    {id' : NodeId} (hkey : ν.node.Kept key key') (hcalled : T.Called role key id id')
    (hrole : T.Roles ν role role') (haccepts : Option.Rel T.pattern accepts accepts')
    (hsends : T.pattern sends sends') :
    T.Nodes ν (.unconnected key id role accepts sends inPorts outPorts inputLayer outputLayer)
      (.unconnected key' id' role' accepts' sends' inPorts outPorts inputLayer outputLayer) where
  key := hkey
  called := hcalled
  role := hrole
  accepts := haccepts
  sends := hsends
  inPorts := rfl
  outPorts := rfl
  inputLayer := rfl
  outputLayer := rfl
  next := .nil
  prev := .nil
  flows := .nil

/-- What is looked up by one identifier has its counterpart under another one. -/
def Meets (T : Comparison n m) (ν : Naming) (net net' : Network) (id id' : NodeId) (type : NodeType)
    (expected : ExpectedRole) : Prop :=
  ∀ k, net.expect id type expected = .ok k →
    ∃ k', net'.expect id' type expected = .ok k' ∧ T.Nodes ν k k'

/-- What is found in the first network has the identifier, as its keys differ. -/
theorem Twins.id_of_expect {type : NodeType} {expected : ExpectedRole} (hT : T.Twins ν net net')
    (hk : net.expect id type expected = .ok k) : k.id = id :=
  Network.id_of_expect hT.nodup hT.ids hk

/-- What is found in the second network has the identifier. -/
theorem Twins.id_of_expect' {type : NodeType} {expected : ExpectedRole} (hT : T.Twins ν net net')
    (hk : net'.expect id type expected = .ok k) : k.id = id :=
  Network.id_of_expect hT.nodup' hT.ids' hk

/-- The node with an identifier is a lost source or has a counterpart. -/
theorem Twins.expect_cases {type : NodeType} {expected : ExpectedRole} (hT : T.Twins ν net net')
    (hk : net.expect id type expected = .ok k) :
    (∃ k' ∈ net'.nodes, T.Nodes ν k k') ∨ type = .source ∧ T.gone id ∧ T.LostNode ν k := by
  obtain ⟨hmem, htype, -⟩ := Network.mem_of_expect hk
  refine (hT.nodes.of_mem hmem).imp_right fun hlost ↦ ⟨?_, hT.id_of_expect hk ▸ hlost.gone, hlost⟩
  rw [← htype, Node.type, hlost.role]

/-- **If nothing is mixed up, a node is found in the twin under what it is called there**, unless it
is a lost source. -/
theorem Twins.meets_of_discerns {id' : NodeId} {type : NodeType} {expected : ExpectedRole}
    (hT : T.Twins ν net net') (hd : T.Discerns)
    (hcalled : ∀ k k', T.Nodes ν k k' → k.type = type → k.id = id → k'.id = id')
    (hstays : type ≠ .source ∨ ¬ T.gone id) : T.Meets ν net net' id id' type expected := by
  intro k hk
  obtain ⟨hmem, htype, hid⟩ := Network.mem_of_expect hk
  obtain rfl := hT.id_of_expect hk
  obtain ⟨k', hmem', hkk⟩ | ⟨hsource, hgone, -⟩ := hT.expect_cases hk
  · have hid' := hT.reaches hd k.name (List.mem_map_of_mem hmem) k'.name
      (List.mem_map_of_mem hmem') hkk.key hid
    have hfind : net'.node? id' = some k' := Option.bind_eq_some_iff.2
      ⟨k'.key, hcalled k k' hkk htype rfl ▸ hid', Network.nodeAt?_of_mem hT.nodup' hmem'⟩
    exact ⟨k', Network.expect_eq_ok.2 ⟨hfind, hkk.type_eq.trans htype⟩, hkk⟩
  · exact absurd hgone (hstays.resolve_left (not_not_intro hsource))

/-- No two rules are at one place of a table. -/
def OncePlaced (net : Network) : Prop :=
  ∀ k ∈ net.nodes, ∀ l ∈ net.nodes, ∀ r s, k.rule? = some r → l.rule? = some s →
    r.table = s.table → r.index = s.index → k.key = l.key

/-- **If the same rule is looked up in both networks, and found, it is found by its
counterpart.** -/
theorem Twins.meets_rule {expected : ExpectedRole} (hT : T.Twins ν net net')
    (honce : OncePlaced net) (hk' : ∃ k', net'.expect id .rule expected = .ok k') :
    T.Meets ν net net' id id .rule expected := by
  intro k hk
  obtain ⟨k', hk'⟩ := hk'
  obtain ⟨hmem, htype, -⟩ := Network.mem_of_expect hk
  obtain ⟨hmem', htype', -⟩ := Network.mem_of_expect hk'
  obtain ⟨l, hl, hlk⟩ := hT.nodes.of_mem_right hmem'
  obtain ⟨r, hr⟩ := Node.exists_rule? htype
  obtain ⟨s, hs⟩ := Node.exists_rule? (hlk.type_eq.symm.trans htype')
  obtain ⟨x', -, hkx⟩ | ⟨⟨⟩, -⟩ := hT.expect_cases hk
  have hplace : ruleId r.table r.index = ruleId s.table s.index := by
    rw [← (hkx.id_of_rule hr).1, ← (hlk.id_of_rule hs).1, ← (hlk.id_of_rule hs).2,
      hT.id_of_expect hk, hT.id_of_expect' hk']
  obtain ⟨htable, hindex⟩ := ruleId_injective hplace
  have hsame := honce k hmem l hl r s hr hs htable hindex
  obtain rfl := Engine.eq_of_key_eq hT.nodup hmem hl hsame
  exact ⟨k', hk', hlk⟩

/-- **If a source or a probe and what goes with it are looked up, and found, they are
counterparts.** No two of them have the same identifier. -/
theorem Twins.meets_of_owner {type : NodeType} {expected : ExpectedRole} (hT : T.Twins ν net net')
    (hone : ∀ key key' id, T.owner key id → T.owner key' id → key = key') (htype : type ≠ .rule)
    (hstays : type ≠ .source ∨ ¬ T.gone id)
    (hk' : ∃ k', net'.expect (T.rename id) type expected = .ok k') :
    T.Meets ν net net' id (T.rename id) type expected := by
  intro k hk
  obtain ⟨k', hk'⟩ := hk'
  obtain ⟨hmem, hktype, -⟩ := Network.mem_of_expect hk
  obtain ⟨hmem', hktype', -⟩ := Network.mem_of_expect hk'
  obtain ⟨l, hl, hlk⟩ := hT.nodes.of_mem_right hmem'
  obtain ⟨x', -, hkx⟩ | ⟨hsource, hgone, -⟩ := hT.expect_cases hk
  swap
  · exact absurd hgone (hstays.resolve_left (not_not_intro hsource))
  obtain ⟨-, hkstays, hkowner⟩ := hkx.id_of_type (hktype ▸ htype)
  obtain ⟨hlid, hlstays, hlowner⟩ := hlk.id_of_type (hlk.type_eq ▸ hktype' ▸ htype)
  have hid : l.id = k.id := T.rename_injective _ _ hlstays hkstays <| by
    rw [← hlid, hT.id_of_expect' hk', hT.id_of_expect hk]
  obtain rfl := Engine.eq_of_key_eq hT.nodup hmem hl (hone _ _ _ hkowner (hid ▸ hlowner))
  exact ⟨k', hk', hlk⟩

/-- The source with the identifier of a lost source is lost. -/
theorem Twins.expect_lost {expected : ExpectedRole} (hT : T.Twins ν net net')
    (hk : net.expect id .source expected = .ok k) (hgone : T.gone id) : T.LostNode ν k := by
  obtain ⟨k', -, hkk⟩ | ⟨-, -, hlost⟩ := hT.expect_cases hk
  · have htype : k.type ≠ .rule := by
      rw [(Network.expect_eq_ok.1 hk).2]
      decide
    exact absurd (hT.id_of_expect hk ▸ hgone) (hkk.id_of_type htype).2.1
  · exact hlost

end Comparison

namespace Engine

/-- A node and its counterpart are found in the networks. -/
theorem tracks_node_found (hT : T.Twins ν net net') (hkey : ν.node.Kept key key') :
    Checked.Tracks (net.node key) (net'.node key') fun k k' ↦
      k ∈ net.nodes ∧ k' ∈ net'.nodes ∧ T.Nodes ν k k' := fun k hk ↦ by
  obtain ⟨k', hk', hkk⟩ := hT.tracks_node hkey k hk
  exact ⟨k', hk', (nodeAt?_eq_some (node_eq_ok.1 hk)).1,
    (nodeAt?_eq_some (node_eq_ok.1 hk')).1, hkk⟩

/-- **A node and its counterpart are added**, each under the next key. -/
theorem tracksAt_addNode {u u' : NodeKey → Node} {p q : Progress} (habreast : T.Abreast ν p q)
    (hkey : ∀ key, (u key).key = key)
    (hu : ∀ ν' key', ν'.node.Kept p.network.nextKey key' →
      T.Nodes ν' (u p.network.nextKey) (u' key')) :
    TracksAt T ν (addNode u) (addNode u') (fun ν' key key' ↦ ν'.node.Kept key key') p q := by
  have hT := habreast.twins
  have hν := hT.grows_putNode (.kept q.network.nextKey)
  exact tracksAt_of_run rfl rfl hν ⟨hT.addNode (hkey _) (hu _ _ Lexicon.put_self), habreast.bare,
    habreast.reports⟩ Lexicon.put_self

/-- A node and its counterpart are added, from all twin networks. -/
theorem tracks_addNode {u u' : NodeKey → Node} (hkey : ∀ key, (u key).key = key)
    (hu : ∀ ν' key key', ν'.node.Kept key key' → T.Nodes ν' (u key) (u' key')) :
    Tracks T ν (addNode u) (addNode u') fun ν' key key' ↦ ν'.node.Kept key key' :=
  fun _ _ habreast ↦ tracksAt_addNode habreast hkey fun ν' key' ↦ hu ν' _ key'

/-- **A lost source is added.** -/
theorem idle_addNode {u : NodeKey → Node} (hinexact : ¬ T.exact) (hkey : ∀ key, (u key).key = key)
    (hu : ∀ ν' key, ν.Grows ν' → ν'.node.Lost () key → T.LostNode ν' (u key)) :
    Tracks T ν (addNode u) (pure () : Engine Unit) fun ν' key _ ↦ ν'.node.Lost () key := by
  intro p q habreast
  have hT := habreast.twins
  have hν := hT.grows_putNode (.lost ())
  exact tracksAt_of_run rfl rfl hν ⟨hT.addNode_lost hinexact (hkey _) (hu _ _ hν Lexicon.put_self),
    habreast.bare, habreast.reports⟩ Lexicon.put_self

/-- A node and its counterpart are taken out. -/
theorem follows_eraseNode (hkey : ν.node.Kept key key') :
    Follows T ν (eraseNode key) (eraseNode key') := by
  intro p q habreast
  have hT := habreast.twins
  refine tracksAt_ask_bind (tracks_node_found hT hkey) fun k k' _ ⟨hmem, hmem', hkk⟩ ↦ ?_
  exact tracksAt_of_run rfl rfl (.refl ν)
    ⟨hT.eraseNode hmem hmem' hkk, habreast.bare, habreast.reports⟩ trivial

/-- A lost source is taken out. -/
theorem idle_eraseNode (hkey : ν.node.Lost () key) : Idle T ν (eraseNode key) := by
  intro p q habreast
  have hT := habreast.twins
  refine tracksAt_node_left fun k hnode ↦ idleAt_update habreast ?_
  exact hT.eraseNode_lost (nodeAt?_eq_some hnode).1 (hT.node_lost hkey hnode)

/-- **The flows of a node are removed**, with those of lost sources. -/
theorem follows_removeFlows (hkey : ν.node.Kept key key') :
    Follows T ν (removeFlows key) (removeFlows key') :=
  tracks_node_bind hkey fun _ _ hk ↦ follows_forM hk.flows
    (fun _ _ _ hν hh ↦ follows_removeFlow (hh.grow hν.flow))
    fun _ _ hν hh ↦ idle_removeFlow (hh.grow hν.flow)

/-- The flows of a lost source are removed. -/
theorem idle_removeFlows (hkey : ν.node.Lost () key) : Idle T ν (removeFlows key) :=
  tracks_node_left fun _ _ _ hT hnode ↦ idle_forM fun h hh _ hν ↦
    idle_removeFlow (((hT.node_lost hkey hnode).flows h hh).grow hν.flow)

/-- **A rule and its counterpart are removed.** -/
theorem follows_removeRuleNode (hkey : ν.node.Kept key key') :
    Follows T ν (removeRuleNode key) (removeRuleNode key') :=
  (follows_removeFlows hkey).next fun _ hν₁ ↦ (follows_disconnect (hkey.grow hν₁.node)).next
    fun _ hν₂ ↦ (follows_release (hkey.grow (hν₁.trans hν₂).node)).next fun _ hν₃ ↦
      follows_eraseNode (hkey.grow ((hν₁.trans hν₂).trans hν₃).node)

/-- **A source or a probe and its counterpart are removed.** -/
theorem follows_removePlainNode (hkey : ν.node.Kept key key') :
    Follows T ν (removePlainNode key) (removePlainNode key') :=
  (follows_removeFlows hkey).next fun _ hν₁ ↦ (follows_disconnect (hkey.grow hν₁.node)).next
    fun _ hν₂ ↦ follows_eraseNode (hkey.grow (hν₁.trans hν₂).node)

/-- **A lost source is removed.** -/
theorem idle_removePlainNode (hkey : ν.node.Lost () key) : Idle T ν (removePlainNode key) :=
  (idle_removeFlows hkey).next fun _ hν₁ ↦ (idle_disconnect (hkey.grow hν₁.node)).next
    fun _ hν₂ ↦ idle_eraseNode (hkey.grow (hν₁.trans hν₂).node)

/-! ### Sources -/

/-- Puts the flow of a source at the source and sends it on. -/
def launch (key : NodeKey) (root : Handle) : Engine Unit := do
  alterNode key fun n ↦ { n with flows := n.flows ++ [root] }
  Engine.arrive key root

/-- Launching headers is a way of taking in a flow. -/
theorem followsArrival_launch : FollowsArrival T ν launch launch := by
  intro ν' key key' h h' _ hkey hh p q habreast hplaced
  have hfollows : Follows T ν' (alterNode key fun n ↦ { n with flows := n.flows ++ [h] })
      (alterNode key' fun n ↦ { n with flows := n.flows ++ [h'] }) :=
    follows_alterNode hkey (fun _ ↦ ⟨rfl, rfl⟩) fun k k' hk ↦
      { hk with flows := hk.flows.append (.single hh) }
  refine (hfollows p q habreast).bind fun ν₁ _ _ p₁ q₁ hν₁ hrun habreast₁ _ ↦ ?_
  refine followsArrival_arrive ν₁ key key' h h' (.refl ν₁) (hkey.grow hν₁.node)
    (hh.grow hν₁.flow) p₁ q₁ habreast₁ fun f hf ↦ hplaced f ?_
  obtain ⟨-, hsame⟩ := leads_alterNode.1 ⟨p.reports, p₁.reports, hrun⟩
  rwa [hsame] at hf

/-- Launching the headers of a lost source is idle. -/
theorem idlesArrival_launch : IdlesArrival T ν launch := by
  intro ν' key h _ hkey hh
  refine Idle.next (idle_alterNode (fun _ ↦ rfl) (fun k k' _ hk ↦ { hk with flows := ?_ })
    fun k _ hk ↦ { hk with flows := fun g hg ↦ ?_ }) fun ν₁ hν₁ ↦ ?_
  · have hflows := hk.flows.append (.skip hh .nil)
    rwa [List.append_nil] at hflows
  · obtain hg | hg := List.mem_append.1 hg
    · exact hk.flows g hg
    · exact List.mem_singleton.1 hg ▸ hh
  · exact idlesArrival_arrive ν₁ key h (.refl ν₁) (hkey.imp fun _ hx ↦ hν₁.node _ _ hx)
      (hh.grow hν₁.flow)

/-- **The headers of a source go their way.** -/
theorem follows_launch (hkey : ν.node.Kept key key') (hs : T.space s s') :
    Follows T ν (insertFlow (fun h ↦ .root key h s) >>= launch key)
      (insertFlow (fun h ↦ .root key' h s') >>= launch key') :=
  follows_insertFlow_arrive followsArrival_launch hkey (fun _ _ _ hν hh ↦
    { node := hkey.grow hν.node
      source := hh
      input := hs
      processed := .some hs
      port := rfl
      pipe := .none
      parent := .none
      children := .nil
      looped := rfl }) (fun _ ↦ rfl) (fun _ _ hp ↦ by cases hp) fun _ ↦ rfl

/-- **The headers of a lost source go their way.** -/
theorem idle_launch (hinexact : ¬ T.exact) (hkey : ν.node.Lost () key) :
    Idle T ν (insertFlow (fun h ↦ .root key h s) >>= launch key) := by
  refine Tracks.bind_left (idle_insertFlow hinexact (fun _ _ hν hh ↦
    { node := ⟨_, hkey.grow hν.node⟩
      source := hh
      parent := fun _ hp ↦ by cases hp
      children := fun _ hc ↦ by cases hc
      root := fun _ ↦ hkey.grow hν.node }) (fun _ ↦ rfl) fun _ _ hp ↦ by cases hp)
    fun ν₁ h hν₁ hh ↦ ?_
  exact idlesArrival_launch ν₁ key h (.refl ν₁) ⟨_, hkey.grow hν₁.node⟩ hh

/-! ### Probes -/

/-- **A probe that starts looks at the same flows**, those of lost sources apart. -/
theorem tracks_liveChains {hs hs' : List Handle} (hT : T.Twins ν net net')
    (hhs : Culled ν.flow.Kept (ν.flow.Lost ()) hs hs') :
    Checked.Tracks (liveChains net hs) (liveChains net' hs') (Comparison.Probes.Surveyed T ν) := by
  induction hhs with
  | nil => exact tracks_ok .nil
  | @keep h h' hs hs' hh _ ih =>
    rw [liveChains, liveChains]
    rw [any_eq (u := Flow.isAlive) (hT.flows.kept h h' hh) fun f f' hff ↦ isAlive_eq hff]
    split
    · exact (hT.chainOf hh).bind fun c c' hc ↦ ih.bind fun l l' hl ↦ tracks_ok (.keep ⟨hh, hc⟩ hl)
    · exact ih
  | @skip h hs hs' hh _ ih =>
    rw [liveChains]
    split
    · refine Checked.Tracks.bind_left fun c _ l hl ↦ ?_
      obtain ⟨more, hmore, hl⟩ := Checked.bind_eq_ok.1 hl
      obtain rfl := Except.ok.inj hl
      obtain ⟨l', hl', hmore⟩ := ih more hmore
      exact ⟨l', hl', .skip hh hmore⟩
    · exact ih

/-- A probe and its counterpart start. -/
theorem follows_startProbe (hkey : ν.node.Kept key key') :
    Follows T ν (startProbe key) (startProbe key') := by
  intro p q habreast
  refine tracksAt_node_bind habreast hkey fun k k' hnode hk ↦ ?_
  refine tracksAt_setEvent_bind habreast (fun he ↦ by
    rw [hk.id_eq (T.rename_of_exact (T.exact_of_events he))]) fun habreast₁ ↦ ?_
  have hT := habreast₁.twins
  refine tracksAt_ask_bind (tracks_liveChains hT hk.flows) fun l l' _ hl ↦ ?_
  have hprobe := hk.probe?
  generalize hr : k.probe? = r at hprobe
  generalize k'.probe? = r' at hprobe
  cases hprobe with
  | none => exact follows_pure.here habreast₁
  | @some r r' hrr =>
    refine tracksAt_ask_bind (hrr.start hT.flows.injective (fun he g g' ↦ hT.flows.eq_of_kept he)
      (fun g hg ↦ hT.inexact hg) hl) ?_
    rintro ⟨s, ts⟩ ⟨s', ts'⟩ - ⟨hs, hts⟩
    refine (followsAt_setProbe habreast₁ hkey hnode hr hs).bind
      fun ν' _ _ p₂ q₂ hν _ habreast₂ _ ↦ ?_
    refine Tracks.here ?_ habreast₂
    by_cases he : T.exact
    · obtain rfl : ts' = ts := hts he
      rw [hk.id_eq (T.rename_of_exact he)]
      exact follows_forM_same fun ν₃ _ hν₃ ↦ tracks_event_bind fun e e' hevent ↦
        follows_report (fun _ ↦ rfl) fun hevents ↦ by rw [hevent hevents]
    · exact follows_tells he (tells_forM fun _ ↦ tells_event_report _)
        (tells_forM fun _ ↦ tells_event_report _)

/-- A probe and its counterpart stop. -/
theorem follows_stopProbe (hkey : ν.node.Kept key key') :
    Follows T ν (stopProbe key) (stopProbe key') := by
  intro p q habreast
  refine tracksAt_node_bind habreast hkey fun k k' hnode hk ↦ ?_
  refine tracksAt_setEvent_bind habreast (fun he ↦ by
    rw [hk.id_eq (T.rename_of_exact (T.exact_of_events he))]) fun habreast₁ ↦ ?_
  have hprobe := hk.probe?
  generalize hr : k.probe? = r at hprobe
  generalize k'.probe? = r' at hprobe
  cases hprobe with
  | none => exact follows_pure.here habreast₁
  | some hrr => exact followsAt_setProbe habreast₁ hkey hnode hr hrr.stop

end Engine

end HeaderFlow
