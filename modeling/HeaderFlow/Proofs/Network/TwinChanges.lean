import HeaderFlow.Proofs.Network.Refusal
import HeaderFlow.Proofs.Network.TwinMutation

/-!
# Runs of twin networks

`Comparison.Mutations` says which change of a network goes with which change of its twin, and
`Comparison.AtRest.apply` that a change that succeeds is tracked by the one that goes with it.
Widening is left out here, since it changes what stands for what.

## What has to be known of a change

* Its arguments stand for one another (`Mutations`): the same table, port and index, and a pattern
  or set of headers that fits. What is asked for by an identifier is asked for by the name that the
  identifier has in the twin.
* The identifier that is given out next is not one of a lost source (`Numbers`), so that both runs
  go on counting alike.
* What the change is about has its counterpart, if it is there (`Finds`). This is assumed only where
  identifiers of lost sources could be mixed up with those that are kept; where a comparison tells
  them apart it is proved (`finds_of_discerns`).

The remaining changes are those that are about a lost source: adding and removing it. **They are
tracked by nothing** (`apply_add_lost`, `apply_remove_lost`).

A change that is refused need not be tracked. So each lemma starts with the checks that the change
makes, and has to show that the second run passes them whenever the first one has: lengths agree,
and what has to be there, or must not be there yet, is or is not there in both networks.
-/

namespace HeaderFlow

open Checked (tracks_ok)
open Engine

variable {n m : Nat} {T : Comparison n m} {ν ν' : Naming} {net net' : Network}
  {key key' : NodeKey} {k k' : Node} {id : NodeId} {p p' : Pattern} {s s' : Space}

namespace Network

/-- An audit of a table does not look at the budget. -/
theorem auditRules_budget (b : Budget) (table : TableId) (before ks : List Node) :
    auditRules { net with budget := b } table before ks = net.auditRules table before ks := by
  induction ks generalizing before with
  | nil => rfl
  | cons k ks ih => rw [auditRules, auditRules, ih]; rfl

/-- An audit does not look at the budget. -/
theorem auditTables_budget (b : Budget) (ts : List TableId) :
    auditTables { net with budget := b } ts = net.auditTables ts := by
  induction ts with
  | nil => rfl
  | cons t ts ih =>
    simp only [auditTables, ih, auditRules_budget]
    rfl

end Network

/-- A table that is alike in both networks is put at the same place. -/
theorem Table.alike_insertTable {t t' : Table} {ts ts' : List Table} (ht : t.Alike ν.node t')
    (hts : List.Forall₂ (Table.Alike ν.node) ts ts') :
    List.Forall₂ (Table.Alike ν.node) (Network.insertTable t ts) (Network.insertTable t' ts') := by
  induction hts with
  | nil => exact .cons ht .nil
  | cons hu hus ih =>
    rw [Network.insertTable, Network.insertTable, ht.id, hu.id]
    split
    · exact .cons ht (.cons hu hus)
    · exact .cons hu ih

namespace Comparison

/-- What goes with an answer. -/
inductive Replies (T : Comparison n m) : Reply → Reply → Prop
  | done : Replies T .done .done
  | node {id id' : NodeId} : (T.exact → id' = id) → Replies T (.node id) (.node id')
  | length {bytes bytes' : Nat} : (T.events → bytes' = bytes) →
    Replies T (.length bytes) (.length bytes')
  | anomalies (found : List Anomaly) : Replies T (.anomalies found) (.anomalies found)

/-- What goes with a change, unless it is about a lost source. -/
inductive Mutations (T : Comparison n m) : Mutation → Mutation → Prop
  | addTable (id : TableId) (ports : List Port) :
    Mutations T (.addTable id ports) (.addTable id ports)
  | removeTable (id : TableId) : Mutations T (.removeTable id) (.removeTable id)
  | addRule {r r' : RuleSpec} : T.RuleSpecs r r' → Mutations T (.addRule r) (.addRule r')
  | removeRule (id : NodeId) : Mutations T (.removeRule id) (.removeRule id)
  | addLink (l : Link) : Mutations T (.addLink l) (.addLink l)
  | removeLink (l : Link) : Mutations T (.removeLink l) (.removeLink l)
  | addSource {s s' : Space} (ports : List Port) :
    T.SpaceFits s s' → Mutations T (.addSource s ports) (.addSource s' ports)
  | addSourcePattern {p p' : Pattern} (ports : List Port) :
    T.Fits p p' → Mutations T (.addSourcePattern p ports) (.addSourcePattern p' ports)
  | removeSource (id : NodeId) : Mutations T (.removeSource id) (.removeSource (T.rename id))
  | addProbe {r r' : ProbeSpec} : T.ProbeSpecs r r' → Mutations T (.addProbe r) (.addProbe r')
  | removeProbe (id : NodeId) : Mutations T (.removeProbe id) (.removeProbe (T.rename id))
  | restartProbe (id : NodeId) : Mutations T (.restartProbe id) (.restartProbe (T.rename id))
  | audit (table : Option TableId) : Mutations T (.audit table) (.audit table)

/-- The identifier that is given out next is not that of a lost source. -/
structure Numbers (T : Comparison n m) (id : NodeId) : Prop where
  stays : ¬ T.gone id
  next : T.rename (id + 1) = T.rename id + 1
  le : (T.rename id).toNat ≤ id.toNat

/-- What the change is about has its counterpart, if it is there. -/
def Finds (T : Comparison n m) (ν : Naming) (net net' : Network) : Mutation → Prop
  | .removeRule id => T.Meets ν net net' id id .rule .rule
  | .removeSource id => T.Meets ν net net' id (T.rename id) .source .source
  | .removeProbe id | .restartProbe id => T.Meets ν net net' id (T.rename id) .sourceProbe .probe
  | _ => True

namespace AtRest

variable (hT : T.AtRest ν net net')

include hT

/-! ### Tables and rules -/

/-- Tables are found alike. -/
theorem table? (id : TableId) : Option.Rel (Table.Alike ν.node) (net.table? id) (net'.table? id) :=
  Twins.table? hT.toTwins id

/-- Both networks get a table. -/
theorem addTable (id : TableId) (ports : List Port) :
    Outcome.Tracks T ν (net.addTable id ports) (net'.addTable id ports) fun _ _ ↦ True := by
  have hnew : Table.Alike ν.node ⟨id, .ofList ports, ∅⟩ ⟨id, .ofList ports, ∅⟩ :=
    ⟨rfl, rfl, fun index ↦ by simpa only [Std.ExtTreeMap.getElem?_empty] using Option.Rel.none⟩
  rw [Network.addTable, Network.addTable, ← optionRel_isSome (hT.table? id)]
  split
  · exact .refused
  split
  · exact .refused
  refine .done { hT with
    tables := Table.alike_insertTable hnew hT.tables
    unrenamed := fun t ht ↦ ?_
    registry := fun he ↦ ?_
    events := fun _ ↦ rfl } trivial
  · rcases List.mem_cons.1 ((Network.perm_insertTable _ _).mem_iff.1 ht) with rfl | ht
    · intro index key hkey
      rw [Std.ExtTreeMap.getElem?_empty] at hkey
      cases hkey
    · exact hT.unrenamed t ht
  · have hsame : net'.registry = net.registry := hT.registry he
    have htables : net'.tables = net.tables := congrArg Registry.tables hsame
    show Registry.mk net'.registry.directory _ = Registry.mk net.registry.directory _
    simp only [hsame, htables]

/-- A table is removed from both networks. -/
theorem removeTable (id : TableId) :
    Outcome.Tracks T ν (net.removeTable id) (net'.removeTable id) fun _ _ ↦ True := by
  rw [Network.removeTable, Network.removeTable, ← Option.not_isSome, ← Option.not_isSome,
    ← optionRel_isSome (hT.table? id)]
  split
  · exact .refused
  refine Network.tracks_carryOut hT ((follows_setEvent fun _ ↦ rfl).next fun ν₁ hν₁ ↦ ?_)
  refine Follows.next ?_ fun ν₂ hν₂ ↦ ?_
  · have hranking : Culled _ (fun _ ↦ False) (net.ranking id) (net'.ranking id) :=
      .of_forall₂ (Twins.ranking hT.toTwins id)
    have hkeys : Culled ν.node.Kept (fun _ ↦ False) ((net.ranking id).map Prod.snd)
        ((net'.ranking id).map Prod.snd) := hranking.map (fun _ _ he ↦ he.2.1) fun _ hno ↦ hno
    exact follows_forM_all hkeys fun ν₂ key key' hν₂ hkey ↦
      follows_removeRuleNode (hkey.grow (hν₁.trans hν₂).node)
  · exact follows_update fun _ _ hT ↦ { hT with
      tables := Table.alike_filter hT.tables id
      unrenamed := fun t ht ↦ hT.unrenamed t (List.mem_of_mem_filter ht)
      registry := fun he ↦
        congrArg (fun r : Registry ↦ Registry.mk r.directory (r.tables.filter (·.id ≠ id)))
        (hT.registry he) }

/-- A pattern of the right length stands for another that has. -/
theorem checkLength {P : Prop} (hp : p.bytes = n → P ∧ p'.bytes = m)
    (hlength : net.checkLength p = .ok ()) : P ∧ net'.checkLength p' = .ok () := by
  have hbytes : net.bytes = n := hT.bytes
  have hbytes' : net'.bytes = m := hT.bytes'
  rw [Network.checkLength] at hlength ⊢
  split at hlength
  · rename_i hlen
    obtain ⟨hP, hlength'⟩ := hp (hlen.trans hbytes)
    exact ⟨hP, if_pos (hlength'.trans hbytes'.symm)⟩
  · cases hlength

/-- An overwrite that is well formed stands for another that is. -/
theorem checkOverwrite {mask mask' value value' : Option Pattern} {w : Option Overwrite}
    (hmask : Option.Rel T.MaskFits mask mask') (hvalue : Option.Rel T.Fits value value')
    (hw : net.checkOverwrite mask value = .ok w) :
    ∃ w', net'.checkOverwrite mask' value' = .ok w' ∧
      Option.Rel (fun w w' ↦ T.mask w.mask w'.mask ∧ T.pattern w.value w'.value) w w' := by
  cases hmask with
  | none =>
    cases hvalue with
    | none =>
      obtain rfl := Except.ok.inj hw
      exact ⟨none, rfl, .none⟩
    | some => cases hw
  | @some k k' hk =>
    cases hvalue with
    | none => cases hw
    | @some v v' hv =>
      rw [Network.checkOverwrite] at hw ⊢
      cases hlk : net.checkLength k with
      | error e => simp [hlk, bind, Except.bind] at hw
      | ok u =>
        cases hlv : net.checkLength v with
        | error e => simp [hlk, hlv, bind, Except.bind] at hw
        | ok u' =>
          obtain ⟨hk, hk'⟩ := hT.checkLength hk hlk
          obtain ⟨hv, hv'⟩ := hT.checkLength hv hlv
          rw [hlk, hlv] at hw
          rw [hk', hv']
          obtain rfl := Except.ok.inj hw
          exact ⟨_, rfl, .some ⟨hk, hv⟩⟩

/-- **The description of a rule fits if that of its counterpart does.** -/
theorem ruleNode {r r' : RuleSpec} {u : NodeKey → Node} (hr : T.RuleSpecs r r')
    (hplaced : T.placed (ruleId r.table r.index)) (hu : net.ruleNode r = .ok u) :
    ∃ u', net'.ruleNode r' = .ok u' ∧ (∀ key, (u key).key = key) ∧
      ∀ ν' key key', ν'.node.Kept key key' → T.Nodes ν' (u key) (u' key') := by
  have hrel := hT.table? r.table
  rw [Network.ruleNode] at hu
  rw [Network.ruleNode, hr.table, hr.index, hr.inPorts, hr.outPorts]
  cases htable : net.table? r.table with
  | none => simp [htable, throw, throwThe, MonadExceptOf.throw] at hu
  | some table =>
    rw [htable] at hu hrel
    obtain ⟨table', htable', halike⟩ := of_optionRel_some hrel
    rw [htable']
    dsimp only at hu ⊢
    rw [halike.ports]
    cases hport : (r.inPorts ++ r.outPorts).find? (fun p ↦ !table.ports.contains p) with
    | some port => simp [hport, throw, throwThe, MonadExceptOf.throw, bind, Except.bind] at hu
    | none =>
      rw [hport] at hu
      cases hlength : net.checkLength r.accepts with
      | error e => simp [hlength, bind, Except.bind] at hu
      | ok _ =>
        obtain ⟨haccepts, hlength'⟩ := hT.checkLength hr.accepts hlength
        cases hoverwrite : net.checkOverwrite r.mask r.value with
        | error e => simp [hlength, hoverwrite, bind, Except.bind] at hu
        | ok w =>
          obtain ⟨w', hoverwrite', hw⟩ := hT.checkOverwrite hr.mask hr.value hoverwrite
          rw [hlength, hoverwrite] at hu
          rw [hlength', hoverwrite']
          dsimp only [bind, Except.bind, pure, Except.pure] at hu
          obtain rfl := Except.ok.inj hu
          refine ⟨_, rfl, fun _ ↦ rfl, fun ν' key key' hkey ↦ ?_⟩
          refine nodes_unconnected hkey (.rule hplaced) (.rule ⟨rfl, rfl, hw, rfl, rfl⟩)
            (.some haccepts) ?_
          cases hw with
          | none => exact haccepts
          | some hw => exact T.replaceMasked haccepts hw.1 hw.2

/-- The rule at a place of a table has its counterpart there. -/
theorem ruleAt? (table : TableId) (index : UInt32) :
    Option.Rel ν.node.Kept (net.ruleAt? table index) (net'.ruleAt? table index) := by
  have htable := hT.table? table
  rw [Network.ruleAt?, Network.ruleAt?]
  generalize net.table? table = o, net'.table? table = o' at htable
  cases htable with
  | none => exact .none
  | some ht => exact ht.rules index

/-- **A rule is added to both networks** under the same identifier. -/
theorem addRule {r r' : RuleSpec} (hr : T.RuleSpecs r r')
    (hplaced : T.placed (ruleId r.table r.index)) :
    Outcome.Tracks T ν (net.addRule r) (net'.addRule r') fun id id' ↦ id' = id := by
  rw [Network.addRule]
  split
  · exact .refused
  rename_i u hu
  obtain ⟨u', hu', hkey, hnodes⟩ := hT.ruleNode hr hplaced hu
  simp only [Network.addRule, hu', hr.table, hr.index]
  refine Network.tracks_carryOut hT ((follows_setEvent fun _ ↦ rfl).next fun ν₁ hν₁ ↦ ?_)
  refine Follows.next ?_ fun ν₂ hν₂ ↦ ?_
  · have hold : Culled ν.node.Kept (fun _ ↦ False) (net.ruleAt? r.table r.index).toList
        (net'.ruleAt? r.table r.index).toList := by
      have hrel := hT.ruleAt? r.table r.index
      generalize net.ruleAt? r.table r.index = o at hrel
      generalize net'.ruleAt? r.table r.index = o' at hrel
      cases hrel with
      | none => exact .nil
      | some hk => exact .single hk
    exact follows_forM_all hold fun ν₂ key key' hν₂ hkey ↦
      follows_removeRuleNode (hkey.grow (hν₁.trans hν₂).node)
  refine (tracks_addNode hkey hnodes).bind fun ν₃ key key' _ hkey ↦ ?_
  refine (follows_relate hkey).next fun ν₄ hν₄ ↦ ?_
  refine (follows_connect (hkey.grow hν₄.node)).next fun ν₅ hν₅ ↦ ?_
  have hkey := hkey.grow (hν₄.trans hν₅).node
  refine (follows_takeWon hkey).next fun ν₆ hν₆ ↦
    (follows_pull (hkey.grow hν₆.node)).next fun ν₇ _ ↦ ?_
  exact tracks_pure rfl

/-- A rule is removed from both networks. -/
theorem removeRule {id : NodeId} (hmeets : T.Meets ν net net' id id .rule .rule) :
    Outcome.Tracks T ν (net.removeRule id) (net'.removeRule id) fun _ _ ↦ True := by
  rw [Network.removeRule]
  split
  · exact .refused
  rename_i k hk
  obtain ⟨k', hk', hkk⟩ := hmeets k hk
  simp only [Network.removeRule, hk']
  exact Network.tracks_carryOut hT ((follows_setEvent fun _ ↦ rfl).next fun ν₁ hν₁ ↦
    follows_removeRuleNode (hkk.key.grow hν₁.node))

/-! ### Links -/

/-- Ports are linked alike. -/
theorem targets_eq (q : Port) : net'.targets q = net.targets q := by
  have htopology : net'.topology = net.topology := hT.topology
  rw [Network.targets, Network.targets, htopology]

/-- Both networks get a link. -/
theorem addLink (l : Link) :
    Outcome.Tracks T ν (net.addLink l) (net'.addLink l) fun _ _ ↦ True := by
  rw [Network.addLink, Network.addLink, hT.targets_eq]
  split
  · exact .done hT trivial
  refine Network.tracks_carryOut hT ((follows_setEvent fun _ ↦ rfl).next fun ν₁ hν₁ ↦ ?_)
  refine Follows.next (follows_update fun _ _ hT ↦ ?_) fun ν₂ hν₂ ↦ follows_connectLink l
  exact { hT with topology := congrArg (Topology.join l) hT.topology }

/-- A link is removed from both networks. -/
theorem removeLink (l : Link) :
    Outcome.Tracks T ν (net.removeLink l) (net'.removeLink l) fun _ _ ↦ True := by
  rw [Network.removeLink, Network.removeLink, hT.targets_eq]
  split
  · exact .refused
  refine Network.tracks_carryOut hT ((follows_setEvent fun _ ↦ rfl).next fun ν₁ hν₁ ↦ ?_)
  refine (follows_disconnectLink l).next fun ν₂ hν₂ ↦ follows_update fun _ _ hT ↦ ?_
  exact { hT with topology := congrArg (Topology.cut l) hT.topology }

/-! ### Sources -/

/-- Both networks count up. -/
theorem countUp (hnext : T.rename (net.nextId + 1) = T.rename net.nextId + 1) :
    T.AtRest ν { net with nextId := net.nextId + 1 } { net' with nextId := net'.nextId + 1 } :=
  have hid : net'.nextId = T.rename net.nextId := hT.nextId
  { hT with nextId := (congrArg (· + 1) hid).trans hnext.symm }

/-- The next identifier is that of a lost source. -/
theorem countUp_lost (hnext : T.rename (net.nextId + 1) = T.rename net.nextId) :
    T.AtRest ν { net with nextId := net.nextId + 1 } net' :=
  { hT with nextId := (show net'.nextId = _ from hT.nextId).trans hnext.symm }

/-- The second run gives out an identifier if the first one does. -/
theorem freshId (hnumbers : T.Numbers net.nextId) {id : NodeId} (hid : net.freshId = .ok id) :
    id = net.nextId ∧ net'.freshId = .ok (T.rename net.nextId) := by
  have hnext : net'.nextId = T.rename net.nextId := hT.nextId
  obtain ⟨hroom, hid⟩ := Network.freshId_eq_ok.1 hid
  refine ⟨hid, Network.freshId_eq_ok.2 ⟨?_, hnext.symm⟩⟩
  have hle := hnumbers.le
  have hlt : net.nextId.toNat < UInt64.size := net.nextId.toNat_lt
  rw [hnext]
  omega

/-- **A source is added to both networks.** Its identifier is the name of the other one. -/
theorem addSource (hs : T.SpaceFits s s') (ports : List Port) (hnumbers : T.Numbers net.nextId)
    (howner : T.owner net.nextKey net.nextId) (hsource : T.source net.nextId) :
    Outcome.Tracks T ν (net.addSource s ports) (net'.addSource s' ports) fun id id' ↦
      id' = T.rename id := by
  have hbytes : net.bytes = n := hT.bytes
  have hbytes' : net'.bytes = m := hT.bytes'
  have hid : net'.nextId = T.rename net.nextId := hT.nextId
  rw [Network.addSource]
  split
  · exact .refused
  rename_i hlength
  obtain ⟨hs, hlength'⟩ := hs ((not_ne_iff.1 hlength).trans hbytes)
  rw [Network.addSource, if_neg (not_ne_iff.2 (hlength'.trans hbytes'.symm))]
  split
  · exact .refused
  rename_i id hfresh
  obtain ⟨rfl, hfresh'⟩ := hT.freshId hnumbers hfresh
  simp only [hfresh', ← hid]
  refine Network.tracksAt_carryOut (hT.countUp hnumbers.next) fun p q hp habreast ↦ ?_
  refine tracksAt_setEvent_bind habreast (fun he ↦ ?_) fun habreast₁ ↦ ?_
  · rw [hid, T.rename_of_exact (T.exact_of_events he)]
  refine (tracksAt_addNode habreast₁ (fun _ ↦ rfl) fun ν' key' hkey ↦ ?_).bind
    fun ν₂ key key' p₂ q₂ _ _ habreast₂ hkey ↦ Tracks.here ?_ habreast₂
  · dsimp only at hkey ⊢
    rw [hp] at hkey ⊢
    rw [hbytes, hbytes', hid]
    exact nodes_unconnected hkey (.source hnumbers.stays howner hsource) .source .none T.allWild
  refine (follows_connect hkey).next fun ν₃ hν₃ ↦ ?_
  have hkey := hkey.grow hν₃.node
  have hlaunch := follows_launch hkey hs
  have hall := Tracks.bind (k := fun _ ↦ pure net.nextId) (l := fun _ ↦ pure net'.nextId) hlaunch
    fun _ _ _ _ _ ↦ tracks_pure (R := fun _ id id' ↦ id' = T.rename id) hid
  simpa only [bind_assoc, launch] using hall

/-- A source that is given by a pattern is added to both networks. -/
theorem addSourcePattern (hp : T.Fits p p') (ports : List Port) (hnumbers : T.Numbers net.nextId)
    (howner : T.owner net.nextKey net.nextId) (hsource : T.source net.nextId) :
    Outcome.Tracks T ν (net.addSourcePattern p ports) (net'.addSourcePattern p' ports) fun id id' ↦
      id' = T.rename id :=
  hT.addSource (fun hlength ↦ (hp hlength).imp_left T.ofPattern) ports hnumbers howner hsource

omit hT in
/-- **A lost source is added.** What the next identifier is has been settled before. -/
theorem addSource_lost (hT : T.AtRest ν { net with nextId := net.nextId + 1 } net') (s : Space)
    (ports : List Port) (hinexact : ¬ T.exact) (hgone : T.gone net.nextId) {id : NodeId}
    (hok : (net.addSource s ports).result = .ok id) :
    ∃ ν', ν.Grows ν' ∧ T.AtRest ν' (net.addSource s ports).network net' := by
  rw [Network.addSource] at hok ⊢
  split at hok
  · cases hok
  rename_i hlength
  rw [if_neg hlength]
  split at hok
  · cases hok
  rename_i next hfresh
  obtain rfl := Network.eq_nextId_of_freshId hfresh
  refine Network.idle_carryOut hinexact hT ?_ hok
  refine (idle_setEvent hinexact).next fun ν₁ hν₁ ↦ ?_
  refine (idle_addNode hinexact (fun _ ↦ rfl) fun ν' key _ hkey ↦ ?_).bind_left
    fun ν₂ key _ hkey ↦ ?_
  · exact {
      key := hkey
      gone := hgone
      role := rfl
      accepts := rfl
      inPorts := rfl
      next := fun _ hg ↦ by cases hg
      prev := rfl
      flows := fun _ hg ↦ by cases hg }
  refine (idle_connect hkey).next fun ν₃ hν₃ ↦ ?_
  have hall := Tracks.bind_left (k := fun _ ↦ (pure net.nextId : Engine NodeId))
    (idle_launch (s := s) hinexact (hkey.grow hν₃.node)) fun _ _ _ _ ↦ follows_pure (b := ())
  simpa only [bind_assoc, launch] using hall

/-- A source is removed from both networks. -/
theorem removeSource {id : NodeId} (hmeets : T.Meets ν net net' id (T.rename id) .source .source) :
    Outcome.Tracks T ν (net.removeSource id) (net'.removeSource (T.rename id)) fun _ _ ↦ True := by
  rw [Network.removeSource]
  split
  · exact .refused
  rename_i k hk
  obtain ⟨k', hk', hkk⟩ := hmeets k hk
  simp only [Network.removeSource, hk']
  refine Network.tracks_carryOut hT ((follows_setEvent fun he ↦ ?_).next fun ν₁ hν₁ ↦
    follows_removePlainNode (hkk.key.grow hν₁.node))
  rw [T.rename_of_exact (T.exact_of_events he)]

/-- **A lost source is removed.** -/
theorem removeSource_lost {id : NodeId} (hinexact : ¬ T.exact) (hgone : T.gone id) {u : Unit}
    (hok : (net.removeSource id).result = .ok u) :
    ∃ ν', ν.Grows ν' ∧ T.AtRest ν' (net.removeSource id).network net' := by
  rw [Network.removeSource] at hok ⊢
  cases hk : net.expect id .source .source with
  | error e =>
    rw [hk] at hok
    cases hok
  | ok k =>
  rw [hk] at hok
  have hkk := hT.expect_lost hk hgone
  exact Network.idle_carryOut hinexact hT ((idle_setEvent hinexact).next fun ν₁ hν₁ ↦
    idle_removePlainNode (hkk.key.grow hν₁.node)) hok

/-! ### Probes -/

/-- A probe is added to both networks. -/
theorem addProbe {r r' : ProbeSpec} (hr : T.ProbeSpecs r r') (hnumbers : T.Numbers net.nextId)
    (howner : T.owner net.nextKey net.nextId) :
    Outcome.Tracks T ν (net.addProbe r) (net'.addProbe r') fun id id' ↦ id' = T.rename id := by
  have hbytes : net.bytes = n := hT.bytes
  have hbytes' : net'.bytes = m := hT.bytes'
  have hid : net'.nextId = T.rename net.nextId := hT.nextId
  rw [Network.addProbe]
  split
  · exact .refused
  rename_i hfits
  have haccepts : T.pattern (r.accepts.getD (.allWild net.bytes))
      (r'.accepts.getD (.allWild net'.bytes)) ∧
      r'.accepts.elim (.ok ()) net'.checkLength = .ok () := by
    have hrel := hr.accepts
    generalize r.accepts = o at hrel hfits
    generalize r'.accepts = o' at hrel
    cases hrel with
    | none =>
      refine ⟨?_, rfl⟩
      rw [hbytes, hbytes']
      exact T.allWild
    | some hp => exact hT.checkLength hp hfits
  split
  · exact .refused
  rename_i id hfresh
  obtain ⟨rfl, hfresh'⟩ := hT.freshId hnumbers hfresh
  simp only [Network.addProbe, haccepts.2, hr.mode, hr.ports, hfresh', ← hid]
  -- From here on nothing can be refused, and the two computations run side by side.
  refine Network.tracksAt_carryOut (hT.countUp hnumbers.next) fun p q hp habreast ↦ ?_
  refine (tracksAt_addNode habreast (fun _ ↦ rfl) fun ν' key' hkey ↦ ?_).bind
    fun ν₁ key key' p₁ q₁ _ _ habreast₁ hkey ↦ Tracks.here ?_ habreast₁
  · rw [hp] at hkey ⊢
    rw [hid]
    refine nodes_unconnected hkey (.probe hnumbers.stays howner) (.probe ?_)
      (.some haccepts.1) haccepts.1
    rw [hbytes, hbytes']
    exact {
      mode := rfl
      state := rfl
      filter := hr.filter
      test := hr.test
      results := .nil
      counted := Nat.le_refl 0
      deciding := fun _ ↦ rfl }
  refine (follows_connect hkey).next fun ν₂ hν₂ ↦
    (follows_pull (hkey.grow hν₂.node)).next fun ν₃ hν₃ ↦ ?_
  refine (follows_startProbe (hkey.grow (hν₂.trans hν₃).node)).next fun ν₄ _ ↦ ?_
  exact tracks_pure hid

/-- A probe is removed from both networks. -/
theorem removeProbe {id : NodeId}
    (hmeets : T.Meets ν net net' id (T.rename id) .sourceProbe .probe) :
    Outcome.Tracks T ν (net.removeProbe id) (net'.removeProbe (T.rename id)) fun _ _ ↦ True := by
  rw [Network.removeProbe]
  split
  · exact .refused
  rename_i k hk
  obtain ⟨k', hk', hkk⟩ := hmeets k hk
  simp only [Network.removeProbe, hk']
  exact Network.tracks_carryOut hT ((follows_stopProbe hkk.key).next fun ν₁ hν₁ ↦
    follows_removePlainNode (hkk.key.grow hν₁.node))

/-- A probe starts over in both networks. -/
theorem restartProbe {id : NodeId}
    (hmeets : T.Meets ν net net' id (T.rename id) .sourceProbe .probe) :
    Outcome.Tracks T ν (net.restartProbe id) (net'.restartProbe (T.rename id)) fun _ _ ↦ True := by
  rw [Network.restartProbe]
  split
  · exact .refused
  rename_i k hk
  obtain ⟨k', hk', hkk⟩ := hmeets k hk
  simp only [Network.restartProbe, hk']
  exact Network.tracks_carryOut hT ((follows_stopProbe hkk.key).next fun ν₁ hν₁ ↦
    follows_startProbe (hkk.key.grow hν₁.node))

/-! ### Audits -/

/-- Audits of both networks find the same. -/
theorem audit (table : Option TableId) :
    Outcome.Tracks T ν (net.audit table) (net'.audit table) Eq := by
  have hids : net'.tables.map Table.id = net.tables.map Table.id := Table.map_id_eq hT.tables
  have htable : ∀ t, (net'.table? t).isSome = (net.table? t).isSome := fun t ↦
    (optionRel_isSome (hT.table? t)).symm
  simp only [Network.audit, hids, htable]
  split
  · exact .refused
  rename_i ts _
  have hfound : Checked.Tracks (net.auditTables ts) (net'.auditTables ts) Eq := by
    simpa only [Network.auditTables_budget] using Twins.auditTables hT.toTwins ts
  split
  · exact .refused
  rename_i found heq
  obtain ⟨_, hfound', rfl⟩ := hfound found heq
  rw [hfound']
  rintro _ ⟨⟩
  exact .inl ⟨found, ν, rfl, .refl ν, hT, fun _ ↦ rfl, fun _ ↦ rfl, rfl⟩

/-! ### All changes -/

/-- **If nothing is mixed up, what a change is about has its counterpart.** -/
theorem finds_of_discerns (hd : T.Discerns) {mu : Mutation}
    (hstays : ∀ id, mu = .removeSource id → ¬ T.gone id) : T.Finds ν net net' mu := by
  have hother : ∀ {type id}, type ≠ .rule → ∀ k k', T.Nodes ν k k' → k.type = type → k.id = id →
      k'.id = T.rename id := by
    rintro _ _ hne k k' hkk rfl rfl
    exact (hkk.id_of_type hne).1
  cases mu with
  | removeRule id =>
    refine hT.toTwins.meets_of_discerns hd (fun k k' hkk htype hid ↦ ?_) (.inl (by decide))
    obtain ⟨r, hr⟩ := Node.exists_rule? htype
    exact (hkk.id_of_rule hr).2.trans hid
  | removeSource id =>
    exact hT.toTwins.meets_of_discerns hd (hother (by decide)) (.inr (hstays id rfl))
  | removeProbe id => exact hT.toTwins.meets_of_discerns hd (hother (by decide)) (.inl (by decide))
  | restartProbe id => exact hT.toTwins.meets_of_discerns hd (hother (by decide)) (.inl (by decide))
  | _ => trivial

/-- **A change is tracked by the one that goes with it.** -/
theorem apply {mu mu' : Mutation} (hmu : T.Mutations mu mu') (hfinds : T.Finds ν net net' mu)
    (hnumbers : mu.numbers = true → T.Numbers net.nextId ∧ T.owner net.nextKey net.nextId)
    (hsource : mu.addsSource = true → T.source net.nextId)
    (hplaced : ∀ spec, mu = .addRule spec → T.placed (ruleId spec.table spec.index)) :
    Outcome.Tracks T ν (net.apply mu) (net'.apply mu') T.Replies := by
  cases hmu with
  | addTable id ports => exact (hT.addTable id ports).map fun _ _ _ ↦ .done
  | removeTable id => exact (hT.removeTable id).map fun _ _ _ ↦ .done
  | addRule hr => exact (hT.addRule hr (hplaced _ rfl)).map fun _ _ hid ↦ .node fun _ ↦ hid
  | removeRule id => exact (hT.removeRule hfinds).map fun _ _ _ ↦ .done
  | addLink l => exact (hT.addLink l).map fun _ _ _ ↦ .done
  | removeLink l => exact (hT.removeLink l).map fun _ _ _ ↦ .done
  | addSource ports hs =>
    obtain ⟨hnumbers, howner⟩ := hnumbers rfl
    exact (hT.addSource hs ports hnumbers howner (hsource rfl)).map fun id _ hid ↦ .node fun he ↦
      hid.trans (T.rename_of_exact he id)
  | addSourcePattern ports hp =>
    obtain ⟨hnumbers, howner⟩ := hnumbers rfl
    exact (hT.addSourcePattern hp ports hnumbers howner (hsource rfl)).map fun id _ hid ↦
      .node fun he ↦
      hid.trans (T.rename_of_exact he id)
  | removeSource id => exact (hT.removeSource hfinds).map fun _ _ _ ↦ .done
  | addProbe hr =>
    obtain ⟨hnumbers, howner⟩ := hnumbers rfl
    exact (hT.addProbe hr hnumbers howner).map fun id _ hid ↦ .node fun he ↦
      hid.trans (T.rename_of_exact he id)
  | removeProbe id => exact (hT.removeProbe hfinds).map fun _ _ _ ↦ .done
  | restartProbe id => exact (hT.restartProbe hfinds).map fun _ _ _ ↦ .done
  | audit table => exact (hT.audit table).map fun found _ h ↦ h ▸ .anomalies found

omit hT in
/-- **Adding a lost source is tracked by nothing.** -/
theorem apply_add_lost {mu : Mutation} {reply : Reply}
    (hT : T.AtRest ν { net with nextId := net.nextId + 1 } net') (hinexact : ¬ T.exact)
    (hadds : mu.addsSource = true) (hgone : T.gone net.nextId)
    (hok : (net.apply mu).result = .ok reply) :
    ∃ ν', ν.Grows ν' ∧ T.AtRest ν' (net.apply mu).network net' := by
  cases mu with
  | addSource space ports =>
    obtain ⟨id, hid⟩ := Outcome.of_map hok
    exact addSource_lost hT space ports hinexact hgone hid
  | addSourcePattern p ports =>
    obtain ⟨id, hid⟩ := Outcome.of_map hok
    exact addSource_lost hT _ ports hinexact hgone hid
  | _ => cases hadds

/-- **Removing a lost source is tracked by nothing.** -/
theorem apply_remove_lost {id : NodeId} {reply : Reply} (hinexact : ¬ T.exact) (hgone : T.gone id)
    (hok : (net.apply (.removeSource id)).result = .ok reply) :
    ∃ ν', ν.Grows ν' ∧ T.AtRest ν' (net.apply (.removeSource id)).network net' :=
  hT.removeSource_lost hinexact hgone (Outcome.of_map hok).choose_spec

end AtRest

end Comparison

end HeaderFlow
