import HeaderFlow.Proofs.Network.Core
import HeaderFlow.Proofs.PortMap
import HeaderFlow.Proofs.PortSet

/-!
# Where nodes are found

Nodes are not searched for. Which nodes there are at a port, which rules a table has, which nodes
are sources or probes and which node goes by an identifier is kept in the directory and in the
tables, and written there when a node comes and when it goes.

`Registry.Agrees` is what all of that must come to, said of the nodes that are there: **each list
names the nodes that it should, in the order in which they were added, and no node that is gone**.
The rules of a table are those at its places, one at each. An identifier leads to a node that has
it; it is not said that every node is found by its identifier, since an identifier given twice leads
to the later node.

A node that comes is entered everywhere (`Registry.Agrees.enrol`) and one that goes is struck out
everywhere (`Registry.Agrees.strike`), whatever else there is.

## One part at a time

The directory has four kinds of records: a map from identifiers, two maps from ports, and the lists
of sources and of probes. Tables are apart from it. There is a lemma for each of them and each of
the two steps, in the same order:

* identifiers: `Addresses.enrol` and `Addresses.strike`;
* ports: `Lists.pushAll` and `Lists.retractAll`, for entrances and for exits;
* sources and probes: `filter_type_concat` and `filter_type_key`;
* rules of a table: `Table.getElem?_enrol` and `Table.getElem?_strike`.

Only a rule has to be admitted: its table has to be there, and its place has to be free
(`Registry.Admits`). Nodes that change in place, such as by widening, are found where they were
(`Agrees.map`).
-/

namespace HeaderFlow

variable {n : Node} {cores : List Core}

/-! ### Identifiers -/

/-- What a node is known by. -/
def Node.name (n : Node) : NodeKey × NodeId := (n.key, n.id)

/-- What a node with the core is known by. -/
def Core.name (c : Core) : NodeKey × NodeId := (c.key, c.id)

namespace Directory

variable {d : Directory} {names : List (NodeKey × NodeId)}

/-- An identifier leads to a node that has it. -/
def Addresses (d : Directory) (names : List (NodeKey × NodeId)) : Prop :=
  ∀ (id : NodeId) key, d.ids[id]? = some key → (key, id) ∈ names

theorem addresses_empty : empty.Addresses names := fun id key h ↦ by
  simp [empty] at h

/-- **A node that is entered is led to by its identifier**, whoever had it before. -/
theorem Addresses.enrol (h : d.Addresses names) : (d.enrol n).Addresses (names ++ [n.name]) := by
  intro id key hid
  rw [Directory.enrol, Std.ExtTreeMap.getElem?_insert] at hid
  split at hid
  · rename_i heq
    rw [← Option.some.inj hid, ← Std.compare_eq_iff_eq.1 heq]
    exact List.mem_append_right _ List.mem_cons_self
  · exact List.mem_append_left _ (h id key hid)

/-- **What is struck out is not led to any more**, since no other node has its key. -/
theorem Addresses.strike (h : d.Addresses names) (hnodup : (names.map Prod.fst).Nodup)
    (hn : n.name ∈ names) : (d.strike n).Addresses (names.filter (·.1 ≠ n.key)) := by
  intro id key hid
  rw [Directory.strike, Std.ExtTreeMap.getElem?_erase] at hid
  split at hid
  · exact absurd hid (by simp)
  · rename_i hne
    have hmem := h id key hid
    refine List.mem_filter.2 ⟨hmem, decide_eq_true fun he ↦ hne (Std.compare_eq_iff_eq.2 ?_)⟩
    exact (congrArg Prod.snd (List.inj_on_of_nodup_map hnodup hmem hn he)).symm

end Directory

/-! ### What is kept -/

/-- A node is found where another is. -/
structure Core.SamePlace (m n : Core) : Prop where
  key : m.key = n.key
  id : m.id = n.id
  inPorts : m.inPorts = n.inPorts
  outPorts : m.outPorts = n.outPorts
  type : m.kind.type = n.kind.type
  rule : ∀ table index, (∃ w, m.kind = .rule table index w) ↔ ∃ w, n.kind = .rule table index w

/-- What is kept so that nodes need not be searched for. -/
structure Registry where
  directory : Directory
  tables : List Table

/-- What a network keeps so that nodes need not be searched for. -/
def Network.registry (net : Network) : Registry := ⟨net.directory, net.tables⟩

namespace Table

/-- What is no rule is entered in no table. -/
theorem map_enrol_of_plain (hn : n.rule? = none) (ts : List Table) :
    ts.map (Table.enrol n) = ts := by
  refine (List.map_congr_left fun t _ ↦ ?_).trans (List.map_id ts)
  rw [Table.enrol, hn]
  rfl

/-- What is no rule is struck out of no table. -/
theorem map_strike_of_plain (hn : n.rule? = none) (ts : List Table) :
    ts.map (Table.strike n) = ts := by
  refine (List.map_congr_left fun t _ ↦ ?_).trans (List.map_id ts)
  rw [Table.strike, hn]
  rfl

end Table

namespace Registry

/-- Enters a node. -/
def enrol (n : Node) (r : Registry) : Registry :=
  ⟨r.directory.enrol n, r.tables.map (Table.enrol n)⟩

/-- Strikes out a node. -/
def strike (n : Node) (r : Registry) : Registry :=
  ⟨r.directory.strike n, r.tables.map (Table.strike n)⟩

/-- A map of ports lists the nodes that have the port, and nothing else. -/
structure Lists (m : PortMap NodeKey) (ports : Core → PortSet) (cores : List Core) : Prop where
  listed : ∀ p, m.listed p = (cores.filter fun n ↦ p ∈ (ports n).toList).map Core.key
  solid : m.Solid

/-- What is kept agrees with the nodes that are there. -/
structure Agrees (r : Registry) (cores : List Core) : Prop where
  ids : r.directory.Addresses (cores.map Core.name)
  entrances : Lists r.directory.entrances Core.inPorts cores
  exits : Lists r.directory.exits Core.outPorts cores
  sources : r.directory.sources = (cores.filter (·.kind.type = .source)).map Core.key
  probes : r.directory.probes = (cores.filter (·.kind.type = .sourceProbe)).map Core.key
  /-- The rules of a table, by their places. -/
  rules : ∀ t ∈ r.tables, ∀ (index : UInt32) key,
    t.rules[index]? = some key ↔ ∃ n ∈ cores, n.key = key ∧ ∃ w, n.kind = .rule t.id index w
  /-- Every rule is in a table that is there. -/
  tables : ∀ n ∈ cores, ∀ table index w, n.kind = .rule table index w → ∃ t ∈ r.tables, t.id = table

variable {r : Registry}

theorem agrees_nil {ts : List Table} (hts : ∀ t ∈ ts, t.rules = ∅) : Agrees ⟨.empty, ts⟩ [] where
  ids := Directory.addresses_empty
  entrances := ⟨fun _ ↦ PortMap.listed_empty, PortMap.solid_empty⟩
  exits := ⟨fun _ ↦ PortMap.listed_empty, PortMap.solid_empty⟩
  sources := rfl
  probes := rfl
  rules t ht index key := by simp [hts t ht]
  tables n hn := absurd hn List.not_mem_nil

/-- Whatever is found by an identifier is a node that has it. -/
theorem Agrees.of_id {id : NodeId} {key : NodeKey} (hr : r.Agrees cores)
    (h : r.directory.ids[id]? = some key) : ∃ n ∈ cores, n.key = key ∧ n.id = id := by
  obtain ⟨n, hn, hname⟩ := List.mem_map.1 (hr.ids id key h)
  exact ⟨n, hn, congrArg Prod.fst hname, congrArg Prod.snd hname⟩

/-! ### Nodes that stay -/

/-- Nodes that keep their keys and ports are listed as before. -/
theorem Lists.map {m : PortMap NodeKey} {ports : Core → PortSet} (hm : Lists m ports cores)
    {k : Core → Core} (hkey : ∀ n, (k n).key = n.key) (hports : ∀ n, ports (k n) = ports n) :
    Lists m ports (cores.map k) where
  listed p := by
    rw [hm.listed, List.filter_map, List.map_map]
    simp only [Function.comp_def, hkey, hports]
  solid := hm.solid

/-- **Nodes that stay where they were are found as before.** -/
theorem Agrees.map (hr : r.Agrees cores) {k : Core → Core} (hk : ∀ n, (k n).SamePlace n) :
    r.Agrees (cores.map k) where
  ids := by
    have hname : Core.name ∘ k = Core.name := funext fun n ↦ Prod.ext (hk n).key (hk n).id
    rw [List.map_map, hname]
    exact hr.ids
  entrances := hr.entrances.map (fun n ↦ (hk n).key) fun n ↦ (hk n).inPorts
  exits := hr.exits.map (fun n ↦ (hk n).key) fun n ↦ (hk n).outPorts
  sources := by
    rw [hr.sources, List.filter_map, List.map_map]
    simp only [Function.comp_def, (hk _).key, (hk _).type]
  probes := by
    rw [hr.probes, List.filter_map, List.map_map]
    simp only [Function.comp_def, (hk _).key, (hk _).type]
  rules t ht index key := by
    simp only [hr.rules t ht, List.mem_map, exists_exists_and_eq_and, (hk _).key, (hk _).rule]
  tables m hm table index w hw := by
    obtain ⟨n, hn, rfl⟩ := List.mem_map.1 hm
    obtain ⟨w', hw'⟩ := ((hk n).rule table index).1 ⟨w, hw⟩
    exact hr.tables n hn table index w' hw'

/-! ### Tables that come and go -/

/-- A new table has no rules, and no rule is in a table of its number. -/
theorem Agrees.addTable (hr : r.Agrees cores) {t : Table} (ht : t.rules = ∅)
    (hnew : ∀ u ∈ r.tables, u.id ≠ t.id) {ts : List Table}
    (hts : ∀ u, u ∈ ts ↔ u = t ∨ u ∈ r.tables) : Agrees ⟨r.directory, ts⟩ cores :=
  { hr with
    rules := fun u hu index key ↦ by
      obtain rfl | hu := (hts u).1 hu
      · rw [ht, Std.ExtTreeMap.getElem?_empty]
        refine iff_of_false nofun ?_
        rintro ⟨n, hn, -, w, hw⟩
        obtain ⟨u, hu, hid⟩ := hr.tables n hn _ _ w hw
        exact hnew u hu hid
      · exact hr.rules u hu index key
    tables := fun n hn table index w hw ↦
      (hr.tables n hn table index w hw).imp fun u hu ↦ ⟨(hts u).2 (.inr hu.1), hu.2⟩ }

/-- A table may go if no rule is in it. -/
theorem Agrees.dropTable (hr : r.Agrees cores) {id : TableId}
    (hnone : ∀ n ∈ cores, ∀ index w, n.kind ≠ .rule id index w) :
    Agrees ⟨r.directory, r.tables.filter (·.id ≠ id)⟩ cores :=
  { hr with
    rules := fun u hu ↦ hr.rules u (List.mem_of_mem_filter hu)
    tables := fun n hn table index w hw ↦ by
      obtain ⟨u, hu, rfl⟩ := hr.tables n hn table index w hw
      refine ⟨u, List.mem_filter.2 ⟨hu, decide_eq_true fun he ↦ hnone n hn index w (he ▸ hw)⟩, rfl⟩
        }

/-! ### A node that comes -/

/-- **A node is entered at the end of the list of each of its ports.** -/
theorem Lists.pushAll {m : PortMap NodeKey} {ports : Core → PortSet} (hm : Lists m ports cores)
    (c : Core) : Lists (m.pushAll (ports c) c.key) ports (cores ++ [c]) where
  listed p := by
    rw [PortMap.listed_pushAll, hm.listed, List.filter_append, List.map_append]
    by_cases hp : p ∈ (ports c).toList
    · simp [hp]
    · simp [hp]
  solid := hm.solid.pushAll

/-- A new node comes last among those of its type. -/
theorem filter_type_concat (type : NodeType) :
    ((cores ++ [n.core]).filter (·.kind.type = type)).map Core.key =
    if n.type = type then (cores.filter (·.kind.type = type)).map Core.key ++ [n.key]
    else (cores.filter (·.kind.type = type)).map Core.key := by
  rw [List.filter_append, List.map_append]
  split <;> rename_i htype <;> simp [htype]

@[simp] theorem id_enrol (t : Table) : (t.enrol n).id = t.id := by
  rw [Table.enrol]
  split
  · split <;> rfl
  · rfl

/-- The rules of a table once a node has been entered. -/
theorem getElem?_enrol {t : Table} {index : UInt32} {key : NodeKey}
    (hfree : (∃ w, n.core.kind = .rule t.id index w) → t.rules[index]? = none) :
    (t.enrol n).rules[index]? = some key ↔
      t.rules[index]? = some key ∨ n.key = key ∧ ∃ w, n.core.kind = .rule t.id index w := by
  rw [Node.kind_core_eq_rule] at hfree ⊢
  rw [Table.enrol]
  cases hr : n.rule? with
  | none => simp
  | some rule =>
    simp only [hr, Option.some.injEq, exists_eq_left'] at hfree ⊢
    split
    · rename_i htable
      rw [Std.ExtTreeMap.getElem?_insert]
      split
      · rename_i hindex
        have hindex := Std.compare_eq_iff_eq.1 hindex
        simp [hfree ⟨htable.symm, hindex⟩, htable, hindex]
      · rename_i hindex
        have hindex : rule.index ≠ index := mt Std.compare_eq_iff_eq.2 hindex
        simp [hindex]
    · rename_i htable
      simp [Ne.symm htable]

/-- Entering a node brings no table. -/
theorem map_id_enrol : (r.enrol n).tables.map Table.id = r.tables.map Table.id := by
  rw [enrol, List.map_map]
  exact List.map_congr_left fun t _ ↦ id_enrol t

/-- The place of a rule is free, in a table that is there. -/
def Admits (r : Registry) (cores : List Core) (c : Core) : Prop :=
  ∀ table index w, c.kind = .rule table index w →
    (∃ t ∈ r.tables, t.id = table) ∧ ∀ m ∈ cores, ∀ w', m.kind ≠ .rule table index w'

/-- Only rules have places. -/
theorem admits_of_plain {c : Core} (hplain : ¬ c.IsRule) : r.Admits cores c :=
  fun table index w hk ↦ absurd ⟨table, index, w, hk⟩ hplain

/-- **Entering a node keeps what is found in agreement with what is there.** -/
theorem Agrees.enrol (hr : r.Agrees cores) (hn : r.Admits cores n.core) :
    (r.enrol n).Agrees (cores ++ [n.core]) where
  ids := by
    rw [List.map_append]
    exact hr.ids.enrol
  entrances := hr.entrances.pushAll n.core
  exits := hr.exits.pushAll n.core
  sources := by
    rw [filter_type_concat, ← hr.sources]
    rfl
  probes := by
    rw [filter_type_concat, ← hr.probes]
    rfl
  rules t ht' index key := by
    obtain ⟨t, ht, rfl⟩ := List.mem_map.1 ht'
    rw [getElem?_enrol, id_enrol, hr.rules t ht]
    · constructor
      · rintro (⟨m, hm, hrest⟩ | hrest)
        · exact ⟨m, List.mem_append_left _ hm, hrest⟩
        · exact ⟨n.core, by simp, hrest⟩
      · rintro ⟨m, hm, hrest⟩
        rcases List.mem_append.1 hm with hm | hm
        · exact .inl ⟨m, hm, hrest⟩
        · obtain rfl := List.mem_singleton.1 hm
          exact .inr hrest
    · rintro ⟨w, hw⟩
      refine Option.eq_none_iff_forall_ne_some.2 fun key hkey ↦ ?_
      obtain ⟨m, hm, -, w', hw'⟩ := (hr.rules t ht index key).1 hkey
      exact (hn _ _ w hw).2 m hm w' hw'
  tables m hm table index w hw := by
    obtain ⟨t, ht, htable⟩ : ∃ t ∈ r.tables, t.id = table := by
      rcases List.mem_append.1 hm with hm | hm
      · exact hr.tables m hm table index w hw
      · exact (hn table index w (List.mem_singleton.1 hm ▸ hw)).1
    exact ⟨t.enrol n, List.mem_map_of_mem ht, (id_enrol t).trans htable⟩

/-! ### A node that goes -/

/-- The nodes with a key are one node, so what is not so of that node is not so of any with its
key. -/
theorem filter_filter_key {P : Core → Prop} [DecidablePred P] (hnodup : (cores.map Core.key).Nodup)
    {c : Core} (hc : c ∈ cores) (hP : ¬ P c) :
    (cores.filter (·.key ≠ c.key)).filter P = cores.filter P := by
  rw [List.filter_filter]
  refine List.filter_congr fun m hm ↦ ?_
  by_cases hkey : m.key = c.key
  · have hnot : ¬ P m := List.inj_on_of_nodup_map hnodup hm hc hkey ▸ hP
    simp [hnot]
  · simp [hkey]

theorem filter_map_key (key : NodeKey) (ms : List Core) :
    (ms.map Core.key).filter (· ≠ key) = (ms.filter (·.key ≠ key)).map Core.key :=
  List.filter_map ..

/-- **A node is struck out of the list of each of its ports**, and the order of the others stays. -/
theorem Lists.retractAll {m : PortMap NodeKey} {ports : Core → PortSet} (hm : Lists m ports cores)
    (hnodup : (cores.map Core.key).Nodup) {c : Core} (hc : c ∈ cores) :
    Lists (m.retractAll (ports c) c.key) ports (cores.filter (·.key ≠ c.key)) where
  listed p := by
    rw [PortMap.listed_retractAll, hm.listed]
    split
    · rw [filter_map_key, List.filter_filter, List.filter_filter]
      simp only [Bool.and_comm]
    · rename_i hp
      rw [filter_filter_key hnodup hc hp]
  solid := hm.solid.retractAll

/-- Striking out by the key is striking out the node. -/
theorem filter_type_key (type : NodeType) (key : NodeKey) :
    ((cores.filter (·.kind.type = type)).map Core.key).filter (· ≠ key) =
      ((cores.filter (·.key ≠ key)).filter (·.kind.type = type)).map Core.key := by
  rw [filter_map_key, List.filter_filter, List.filter_filter]
  simp only [Bool.and_comm]

@[simp] theorem id_strike (t : Table) : (t.strike n).id = t.id := by
  rw [Table.strike]
  split
  · split <;> rfl
  · rfl

/-- The rules of a table once a node has been struck out that was at its place. -/
theorem getElem?_strike {t : Table} {index : UInt32} {key : NodeKey}
    (hthere : ∀ index, (∃ w, n.core.kind = .rule t.id index w) → t.rules[index]? = some n.key) :
    (t.strike n).rules[index]? = some key ↔
      t.rules[index]? = some key ∧ ¬ ∃ w, n.core.kind = .rule t.id index w := by
  simp only [Node.kind_core_eq_rule] at hthere ⊢
  rw [Table.strike]
  cases hr : n.rule? with
  | none => simp
  | some rule =>
    simp only [hr, Option.some.injEq, exists_eq_left'] at hthere ⊢
    split
    · rename_i hplace
      rw [Std.ExtTreeMap.getElem?_erase]
      split
      · rename_i hindex
        simp [hplace.1, Std.compare_eq_iff_eq.1 hindex]
      · rename_i hindex
        have hindex : rule.index ≠ index := mt Std.compare_eq_iff_eq.2 hindex
        simp [hindex]
    · rename_i hplace
      have hnot : ¬ (rule.table = t.id ∧ rule.index = index) := fun ⟨htable, hindex⟩ ↦
        hplace ⟨htable.symm, hindex ▸ hthere index ⟨htable, hindex⟩⟩
      simp [hnot]

/-- Striking out a node takes no table. -/
theorem map_id_strike : (r.strike n).tables.map Table.id = r.tables.map Table.id := by
  rw [strike, List.map_map]
  exact List.map_congr_left fun t _ ↦ id_strike t

/-- **Striking out a node keeps what is found in agreement with what is there.** -/
theorem Agrees.strike (hr : r.Agrees cores) (hnodup : (cores.map Core.key).Nodup)
    (hn : n.core ∈ cores) : (r.strike n).Agrees (cores.filter (·.key ≠ n.key)) where
  ids := by
    have hkeys : (cores.map Core.name).map Prod.fst = cores.map Core.key := List.map_map
    have hids := hr.ids.strike (hkeys ▸ hnodup) (List.mem_map_of_mem hn)
    rwa [List.filter_map] at hids
  entrances := hr.entrances.retractAll hnodup hn
  exits := hr.exits.retractAll hnodup hn
  sources := by
    rw [← filter_type_key, ← hr.sources]
    rfl
  probes := by
    rw [← filter_type_key, ← hr.probes]
    rfl
  rules t ht' index key := by
    obtain ⟨t, ht, rfl⟩ := List.mem_map.1 ht'
    rw [getElem?_strike, id_strike, hr.rules t ht]
    · constructor
      · rintro ⟨⟨m, hm, hkey, w, hw⟩, hnot⟩
        refine ⟨m, List.mem_filter.2 ⟨hm, decide_eq_true fun he ↦ hnot ⟨w, ?_⟩⟩, hkey, w, hw⟩
        exact List.inj_on_of_nodup_map hnodup hm hn he ▸ hw
      · rintro ⟨m, hm, hkey, w, hw⟩
        obtain ⟨hm, hne⟩ := List.mem_filter.1 hm
        refine ⟨⟨m, hm, hkey, w, hw⟩, fun ⟨w', hw'⟩ ↦ of_decide_eq_true hne ?_⟩
        have hplace := (hr.rules t ht index n.key).2 ⟨n.core, hn, rfl, w', hw'⟩
        rw [(hr.rules t ht index m.key).2 ⟨m, hm, rfl, w, hw⟩] at hplace
        exact Option.some.inj hplace
    · exact fun index ⟨w, hw⟩ ↦ (hr.rules t ht index n.key).2 ⟨n.core, hn, rfl, w, hw⟩
  tables m hm table index w hw := by
    obtain ⟨t, ht, htable⟩ := hr.tables m (List.mem_filter.1 hm).1 table index w hw
    exact ⟨t.strike n, List.mem_map_of_mem ht, (id_strike t).trans htable⟩

end Registry

end HeaderFlow
