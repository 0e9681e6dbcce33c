import HeaderFlow.Proofs.Checked
import HeaderFlow.Proofs.Network.Invariant

/-!
# What is found is what a search would find

`Network.receiversAt`, `Network.sendersAt` and `Network.rulesAt` search all nodes: for those at a
port, and for the rules of a table. Nothing that runs does so, since each change follows the keys
that are kept for the purpose. **In a well-formed layout the two come to the same**: every key that
is kept leads to a node, the nodes at a port come in the order in which they were added and the
rules of a table by decreasing priority. So what is proved of a change may speak of all nodes,
however it finds them.

For identifiers, for places and for links it is the members that count: a rule is found at a place
if and only if it is there, a node that is found by an identifier has it, and a port has the origins
that the links say.

## Why order matters

Two searches with the same members are not enough for ports and tables. Nodes are connected in the
order in which they are found, and a flow that is sent down the first pipe may come back before the
second one is there; rules are compared in the order of priority, and a report lists them so. Hence
equations between lists (`receivers_eq`, `rulesOf_eq`), for which the entries at a port are followed
through every change in the order in which they are made.
-/

namespace HeaderFlow

namespace Network

open Engine

variable {net : Network} {n m : Node} {key : NodeKey} {port p q : Port} {table : TableId}
  {index : UInt32} {id : NodeId}

/-- With different keys, every node is found by its own. -/
theorem nodeAt?_of_mem (hnodup : (net.nodes.map Node.key).Nodup) (hn : n ∈ net.nodes) :
    net.nodeAt? n.key = some n := by
  have hsome : (net.nodeAt? n.key).isSome = true :=
    List.find?_isSome.2 ⟨n, hn, beq_self_eq_true n.key⟩
  obtain ⟨m, hm⟩ := Option.isSome_iff_exists.1 hsome
  obtain ⟨hmem, hkey⟩ := nodeAt?_eq_some hm
  exact eq_of_key_eq hnodup hmem hn hkey ▸ hm

theorem node_of_mem (hnodup : (net.layout.cores.map Core.key).Nodup) (hn : n ∈ net.nodes) :
    net.node n.key = .ok n := by
  rw [node, nodeAt?_of_mem (map_key_cores net ▸ hnodup) hn]

/-! ### Nodes at a port -/

/-- The nodes that headers can enter by a port. -/
def receiversAt (net : Network) (port : Port) : List Node :=
  net.nodes.filter fun n ↦ port ∈ n.inPorts.toList

/-- The nodes that headers can leave by a port. -/
def sendersAt (net : Network) (port : Port) : List Node :=
  net.nodes.filter fun n ↦ port ∈ n.outPorts.toList

/-- The receivers at a port are the nodes with this port of entry. -/
theorem mem_receiversAt : n ∈ net.receiversAt port ↔ n ∈ net.nodes ∧ port ∈ n.inPorts.toList := by
  rw [receiversAt, List.mem_filter, decide_eq_true_eq]

/-- The senders at a port are the nodes with this port of exit. -/
theorem mem_sendersAt : n ∈ net.sendersAt port ↔ n ∈ net.nodes ∧ port ∈ n.outPorts.toList := by
  rw [sendersAt, List.mem_filter, decide_eq_true_eq]

/-- Following the keys of nodes that are there leads to these nodes, in order. -/
theorem nodesAt_map_key (hL : net.layout.WellFormed) {ns : List Node}
    (hns : ∀ n ∈ ns, n ∈ net.nodes) : net.nodesAt (ns.map Node.key) = .ok ns := by
  rw [nodesAt]
  induction ns with
  | nil => rfl
  | cons n ns ih =>
    obtain ⟨hn, hns⟩ := List.forall_mem_cons.1 hns
    exact Checked.mapM_cons_eq_ok.2 ⟨n, ns, node_of_mem hL.nodup hn, ih hns, rfl⟩

/-- **The keys that are kept for a port are those of the nodes that headers can enter by it**, in
order. -/
theorem listed_entrances (hL : net.layout.WellFormed) (port : Port) :
    net.directory.entrances.listed port = (net.receiversAt port).map Node.key := by
  refine (hL.found.entrances.listed port).trans ?_
  rw [layout, List.filter_map, List.map_map]
  rfl

/-- The same for the nodes that headers can leave by a port. -/
theorem listed_exits (hL : net.layout.WellFormed) (port : Port) :
    net.directory.exits.listed port = (net.sendersAt port).map Node.key := by
  refine (hL.found.exits.listed port).trans ?_
  rw [layout, List.filter_map, List.map_map]
  rfl

/-- **The nodes that headers can enter by a port are found.** -/
theorem receivers_eq (hL : net.layout.WellFormed) (port : Port) :
    net.receivers port = .ok (net.receiversAt port) := by
  rw [receivers, listed_entrances hL, nodesAt_map_key hL fun n hn ↦ (mem_receiversAt.1 hn).1]

/-- **The nodes that headers can leave by a port are found.** -/
theorem senders_eq (hL : net.layout.WellFormed) (port : Port) :
    net.senders port = .ok (net.sendersAt port) := by
  rw [senders, listed_exits hL, nodesAt_map_key hL fun n hn ↦ (mem_sendersAt.1 hn).1]

/-- What is done with all nodes that headers can enter by a port. -/
theorem forM_receiversAt (hL : net.layout.WellFormed) (port : Port) (k : NodeKey → Engine Unit) :
    (net.directory.entrances.listed port).forM k = (net.receiversAt port).forM fun n ↦ k n.key := by
  rw [listed_entrances hL]
  exact List.forM_map

/-- What is done with all nodes that headers can leave by a port. -/
theorem forM_sendersAt (hL : net.layout.WellFormed) (port : Port) (k : NodeKey → Engine Unit) :
    (net.directory.exits.listed port).forM k = (net.sendersAt port).forM fun n ↦ k n.key := by
  rw [listed_exits hL]
  exact List.forM_map

/-! ### Links -/

/-- The targets of a port are those that the links say. -/
theorem mem_targets : p ∈ net.targets q ↔ ⟨q, p⟩ ∈ net.links :=
  (Topology.mem_links (l := ⟨q, p⟩)).symm

/-- The origins of a port are those that the links say, although they are recorded apart from the
targets. -/
theorem mem_origins (hL : net.layout.WellFormed) : q ∈ net.origins p ↔ ⟨q, p⟩ ∈ net.links :=
  hL.mirrored.mem_origins (l := ⟨q, p⟩)

/-! ### Rules of a table -/

/-- A node with its place in a table, if it is a rule of it. -/
def ruleIn? (table : TableId) (n : Node) : Option (UInt32 × Node) :=
  match n.rule? with
  | some r => if r.table = table then some (r.index, n) else none
  | none => none

theorem ruleIn?_eq_some {e : UInt32 × Node} :
    ruleIn? table n = some e ↔ e.2 = n ∧
    ∃ r, n.rule? = some r ∧ r.table = table ∧ e.1 = r.index := by
  obtain ⟨i, m⟩ := e
  rw [ruleIn?]
  cases n.rule? with
  | none => simp
  | some r =>
    by_cases ht : r.table = table
    · simp [ht, eq_comm, and_comm]
    · simp [ht]

theorem kind_of_rule? {r : Rule} (hr : n.rule? = some r) :
    n.core.kind = .rule r.table r.index r.overwrite := by
  cases hrole : n.role <;> simp_all [Node.rule?, Node.core, Role.kind]

/-- A node whose kind is that of a rule is a rule at this place. -/
theorem rule?_of_kind {w : Option Overwrite} (hk : n.core.kind = .rule table index w) :
    ∃ r, n.rule? = some r ∧ r.table = table ∧ r.index = index := Node.kind_core_eq_rule.1 ⟨w, hk⟩

/-- The rules of a table with their places, by decreasing priority. -/
def rulesAt (net : Network) (table : TableId) : List (UInt32 × Node) :=
  (net.nodes.filterMap (ruleIn? table)).mergeSort fun a b ↦ a.1 ≤ b.1

/-- The rules of a table are all nodes that are rules of it. -/
theorem rulesAt_perm (net : Network) (table : TableId) :
    (net.rulesAt table).Perm (net.nodes.filterMap (ruleIn? table)) := List.mergeSort_perm ..

/-- The rules of a table are the nodes that are rules of it. -/
theorem mem_rulesAt {e : UInt32 × Node} : e ∈ net.rulesAt table ↔
    e.2 ∈ net.nodes ∧ ∃ r, e.2.rule? = some r ∧ r.table = table ∧ e.1 = r.index := by
  rw [(rulesAt_perm net table).mem_iff, List.mem_filterMap]
  simp only [ruleIn?_eq_some]
  constructor
  · rintro ⟨n, hn, rfl, hr⟩
    exact ⟨hn, hr⟩
  · rintro ⟨hn, hr⟩
    exact ⟨e.2, hn, rfl, hr⟩

/-- No rule comes twice. -/
theorem nodup_rulesAt (hnodup : (net.nodes.map Node.key).Nodup) :
    ((net.rulesAt table).map fun e ↦ e.2.key).Nodup := by
  have hsub : ∀ ns : List Node,
      ((ns.filterMap (ruleIn? table)).map fun e ↦ e.2.key).Sublist (ns.map Node.key) := by
    intro ns
    induction ns with
    | nil => exact .refl _
    | cons n ns ih =>
      rw [List.filterMap_cons]
      cases hp : ruleIn? table n with
      | none => exact ih.cons _
      | some e =>
        obtain ⟨rfl, -⟩ := ruleIn?_eq_some.1 hp
        exact ih.cons_cons _
  exact ((rulesAt_perm net table).map _).nodup_iff.2 (hnodup.sublist (hsub _))

/-- Rules come by decreasing priority, which is by increasing place. -/
theorem pairwise_rulesAt (net : Network) (table : TableId) :
    (net.rulesAt table).Pairwise fun a b ↦ a.1 ≤ b.1 := by
  refine (List.pairwise_mergeSort ?_ ?_ _).imp of_decide_eq_true
  · intro a b c hab hbc
    exact decide_eq_true (UInt32.le_trans (of_decide_eq_true hab) (of_decide_eq_true hbc))
  · intro a b
    simpa using UInt32.le_total a.1 b.1

/-- What a table keeps at a place is the key of the rule that is there. -/
theorem mem_ranking (hfound : net.registry.Agrees net.layout.cores) :
    (index, key) ∈ net.ranking table ↔
    ∃ n ∈ net.nodes, n.key = key ∧ ∃ r, n.rule? = some r ∧ r.table = table ∧ r.index = index := by
  have hcores : ∀ t ∈ net.tables, (t.rules[index]? = some key ↔
      ∃ n ∈ net.nodes, n.key = key ∧ ∃ r, n.rule? = some r ∧ r.table = t.id ∧ r.index = index) :=
        fun t ht ↦ by
    rw [hfound.rules t ht, layout]
    simp only [List.mem_map, exists_exists_and_eq_and, Node.key_core, Node.kind_core_eq_rule]
  rw [ranking]
  cases ht : net.table? table with
  | some t =>
    obtain rfl : t.id = table := by simpa using List.find?_some ht
    rw [Option.elim_some, Std.ExtTreeMap.mem_toList_iff_getElem?_eq_some,
      hcores t (List.mem_of_find?_eq_some ht)]
  | none =>
    refine iff_of_false List.not_mem_nil ?_
    rintro ⟨n, hn, -, hrule⟩
    obtain ⟨w, hw⟩ := Node.kind_core_eq_rule.2 hrule
    obtain ⟨t, hmem, hid⟩ := hfound.tables n.core (List.mem_map_of_mem hn) _ _ w hw
    exact List.find?_eq_none.1 ht t hmem (beq_iff_eq.2 hid)

/-- The places that a table keeps are increasing. -/
theorem ranking_increasing (net : Network) (table : TableId) :
    (net.ranking table).Pairwise fun a b ↦ a.1 < b.1 := by
  rw [ranking]
  cases net.table? table with
  | none => exact .nil
  | some t =>
    have hkeys : t.rules.toList.Pairwise fun a b ↦
        compare a.1 b.1 = .lt := Std.ExtTreeMap.ordered_keys_toList
    exact hkeys.imp fun h ↦ compareOfLessAndEq_eq_lt.1 h

/-- There is one rule at a place. -/
theorem nodup_ranking (net : Network) (table : TableId) :
    ((net.ranking table).map Prod.fst).Nodup :=
  List.pairwise_map.2 ((ranking_increasing net table).imp UInt32.ne_of_lt)

/-- **What a table keeps is the list of its rules**: the two have the same members, and both are
ordered by place. -/
theorem ranking_eq (hnodup : (net.layout.cores.map Core.key).Nodup)
    (hfound : net.registry.Agrees net.layout.cores) (table : TableId) :
    net.ranking table = (net.rulesAt table).map fun e ↦ (e.1, e.2.key) := by
  have hmem : ∀ e, e ∈ net.ranking table ↔ e ∈ (net.rulesAt table).map fun e ↦ (e.1, e.2.key) := by
    rintro ⟨index, key⟩
    rw [mem_ranking hfound]
    simp only [List.mem_map, mem_rulesAt, Prod.mk.injEq, Prod.exists]
    constructor
    · rintro ⟨n, hn, rfl, r, hr, htable, rfl⟩
      exact ⟨r.index, n, ⟨hn, r, hr, htable, rfl⟩, rfl, rfl⟩
    · rintro ⟨_, n, ⟨hn, r, hr, htable, rfl⟩, rfl, rfl⟩
      exact ⟨n, hn, rfl, r, hr, htable, rfl⟩
  have hkeys : ((net.rulesAt table).map fun e ↦ (e.1, e.2.key)).Nodup := by
    refine List.Nodup.of_map Prod.snd ?_
    rw [List.map_map]
    exact nodup_rulesAt (map_key_cores net ▸ hnodup)
  have hplaces := nodup_ranking net table
  have hperm := (List.perm_ext_iff_of_nodup hplaces.of_map hkeys).2 hmem
  have hranking : (net.ranking table).Pairwise fun a b ↦ a.1 ≤ b.1 :=
    (ranking_increasing net table).imp UInt32.le_of_lt
  refine hperm.eq_of_pairwise (fun a b ha hb hab hba ↦ ?_) hranking
    (List.pairwise_map.2 (pairwise_rulesAt net table))
  exact List.inj_on_of_nodup_map hplaces ha ((hmem b).2 hb) (UInt32.le_antisymm hab hba)

/-- The rules of a table are found if nodes have different keys and are found where they should
be. -/
theorem rulesOf_of_agrees (hnodup : (net.layout.cores.map Core.key).Nodup)
    (hfound : net.registry.Agrees net.layout.cores) (table : TableId) :
    net.rulesOf table = .ok (net.rulesAt table) := by
  rw [rulesOf, ranking_eq hnodup hfound]
  have hall : ∀ e ∈ net.rulesAt table, e.2 ∈ net.nodes := fun e he ↦ (mem_rulesAt.1 he).1
  generalize net.rulesAt table = es at hall
  induction es with
  | nil => rfl
  | cons e es ih =>
    obtain ⟨he, hes⟩ := List.forall_mem_cons.1 hall
    refine Checked.mapM_cons_eq_ok.2 ⟨e, es, ?_, ih hes, rfl⟩
    exact Checked.bind_eq_ok.2 ⟨e.2, node_of_mem hnodup he, rfl⟩

/-- **The rules of a table are found, by decreasing priority.** -/
theorem rulesOf_eq (hL : net.layout.WellFormed) (table : TableId) :
    net.rulesOf table = .ok (net.rulesAt table) := rulesOf_of_agrees hL.nodup hL.found table

/-- A rule is found at its place. -/
theorem ruleAt?_eq_some (hL : net.layout.WellFormed) : net.ruleAt? table index = some key ↔
    ∃ n ∈ net.nodes, n.key = key ∧ ∃ r, n.rule? = some r ∧ r.table = table ∧ r.index = index := by
  rw [← mem_ranking hL.found, ruleAt?, ranking]
  cases net.table? table with
  | none => simp
  | some t => simp [Std.ExtTreeMap.mem_toList_iff_getElem?_eq_some]

/-! ### Identifiers -/

theorem mem_of_node? (hn : net.node? id = some n) : n ∈ net.nodes := by
  obtain ⟨key, -, hkey⟩ := Option.bind_eq_some_iff.1 hn
  exact List.mem_of_find?_eq_some hkey

/-- What is found by an identifier has it. -/
theorem id_of_node? (hL : net.layout.WellFormed) (hn : net.node? id = some n) : n.id = id := by
  obtain ⟨key, hid, hkey⟩ := Option.bind_eq_some_iff.1 hn
  obtain ⟨c, hc, hckey, hcid⟩ := hL.found.of_id hid
  obtain ⟨m, hm, rfl⟩ := List.mem_map.1 hc
  obtain ⟨hmem, hnkey⟩ := nodeAt?_eq_some hkey
  obtain rfl := eq_of_key_eq (map_key_cores net ▸ hL.nodup) hm hmem (hckey.trans hnkey.symm)
  exact hcid

/-- What is asked for by an identifier is what is found by it. -/
theorem require_eq_ok : net.require id = .ok n ↔ net.node? id = some n := by
  rw [require, node?]
  cases net.directory.ids[id]? with
  | none => simp
  | some key =>
    simp only [Option.bind_some, node]
    cases net.nodeAt? key <;> simp [Except.mapError]

/-- **A node that is asked for by its identifier is there, or there is none.** -/
theorem require_eq (hL : net.layout.WellFormed) (id : NodeId) : net.require id =
    match net.node? id with
    | some n => .ok n
    | none => .error (.nodeNotFound id) := by
  rw [require, node?]
  cases hid : net.directory.ids[id]? with
  | none => rfl
  | some key =>
    obtain ⟨c, hc, hkey, -⟩ := hL.found.of_id hid
    obtain ⟨m, hm, rfl⟩ := List.mem_map.1 hc
    obtain rfl := hkey
    rw [Option.bind_some]
    simp only [Node.key_core, node_of_mem hL.nodup hm,
      nodeAt?_of_mem (map_key_cores net ▸ hL.nodup) hm]
    rfl

end Network

end HeaderFlow
