import HeaderFlow.Proofs.Network.Registry
import HeaderFlow.Proofs.Culled
import HeaderFlow.Proofs.Pairs

/-!
# Where nodes of twin networks are found

Two tables are alike if at every place there are rules that go with each other, or none. Two
directories are alike if the lists at every port are, **without the sources that are lost**, which
stand only where headers leave. No node needs to be looked at to say so, only the keys that go with
each other; and a node that comes or goes together with its counterpart, or a lost source that comes
or goes alone, leaves tables and directories alike.

Identifiers are another matter, since nodes can be called differently in the two runs. As long as
nodes that are called differently in the first run are so in the second, a node that is found by its
identifier has a counterpart that is found too (`Directory.Reaches`).

## Tables, ports, identifiers

* `Table.Alike`: what the table ranks at a place. A rule and its counterpart take and leave the same
  place, so nothing but their keys is needed (`Alike.enrol`, `Alike.strike`), and both tables rank
  rules in the same order (`Alike.toList`).
* `Directory.Alike`: what is listed at a port. Both lists grow at the end, so that culling one of
  them is kept up.
* `Directory.Reaches`: what is found by an identifier. A node that is entered replaces the one that
  was found by the same identifier before. So **what is entered in the second run may only hide the
  counterparts of nodes that are hidden in the first run as well** (`Discerned`).
-/

namespace HeaderFlow

variable {ν ν' : Lexicon NodeKey Unit} {n n' : Node} {t t' : Table} {d d' : Directory}
  {names names' : List (NodeKey × NodeId)}

/-! ### Nodes at the same places -/

/-- The nodes have the same ports, and if they are rules, the same place in the same table. -/
structure Node.SamePlace (n n' : Node) : Prop where
  inPorts : n'.inPorts = n.inPorts
  outPorts : n'.outPorts = n.outPorts
  type : n'.type = n.type
  rule : Option.Rel (fun r r' : Rule ↦ r'.table = r.table ∧ r'.index = r.index) n.rule? n'.rule?

/-! ### Tables -/

/-- At every place of the tables there are rules that go with each other, or none. -/
structure Table.Alike (ν : Lexicon NodeKey Unit) (t t' : Table) : Prop where
  id : t'.id = t.id
  ports : t'.ports = t.ports
  rules : ∀ index : UInt32, Option.Rel ν.Kept t.rules[index]? t'.rules[index]?

namespace Table

/-- More names were added meanwhile. -/
theorem Alike.grow (h : Alike ν t t') (hν : ν.Grows ν') : Alike ν' t t' :=
  { h with rules := fun index ↦ optionRel_imp (h.rules index) fun _ _ hk ↦ hk.grow hν }

/-- **A rule and its counterpart take their place.** -/
theorem Alike.enrol (h : Alike ν t t') (hkey : ν.Kept n.key n'.key) (hplace : n.SamePlace n') :
    Alike ν (t.enrol n) (t'.enrol n') := by
  have hrule := hplace.rule
  rw [Table.enrol, Table.enrol]
  generalize n.rule? = o, n'.rule? = o' at hrule
  cases hrule with
  | none => exact h
  | @some r r' hr =>
    obtain ⟨htable, hindex⟩ := hr
    simp only [htable, hindex, h.id]
    split
    · refine ⟨rfl, h.ports, fun index ↦ ?_⟩
      simp only [Std.ExtTreeMap.getElem?_insert]
      split
      · exact .some hkey
      · exact h.rules index
    · exact h

/-- **A rule and its counterpart leave their place.** -/
theorem Alike.strike (h : Alike ν t t') (hν : ν.Injective) (hkey : ν.Kept n.key n'.key)
    (hplace : n.SamePlace n') : Alike ν (t.strike n) (t'.strike n') := by
  have hrule := hplace.rule
  rw [Table.strike, Table.strike]
  generalize n.rule? = o, n'.rule? = o' at hrule
  cases hrule with
  | none => exact h
  | @some r r' hr =>
    obtain ⟨htable, hindex⟩ := hr
    have hthere : t.rules[r.index]? = some n.key ↔ t'.rules[r.index]? = some n'.key := by
      have hrel := h.rules r.index
      generalize t.rules[r.index]? = x, t'.rules[r.index]? = x' at hrel
      cases hrel with
      | none => simp
      | some hx => rw [Option.some.injEq, Option.some.injEq, hν.eq_iff hx hkey]
    simp only [htable, hindex, h.id, hthere]
    split
    · refine ⟨rfl, h.ports, fun index ↦ ?_⟩
      simp only [Std.ExtTreeMap.getElem?_erase]
      split
      · exact .none
      · exact h.rules index
    · exact h

/-- A rule takes its place by its key, and whatever else it has does not matter. -/
theorem enrol_congr (hkey : n'.key = n.key) (hplace : n.SamePlace n') (t : Table) :
    t.enrol n' = t.enrol n := by
  have hrule := hplace.rule
  rw [Table.enrol, Table.enrol]
  generalize n.rule? = o, n'.rule? = o' at hrule
  cases hrule with
  | none => rfl
  | some hr => simp only [hr.1, hr.2, hkey]

/-- A rule leaves its place by its key. -/
theorem strike_congr (hkey : n'.key = n.key) (hplace : n.SamePlace n') (t : Table) :
    t.strike n' = t.strike n := by
  have hrule := hplace.rule
  rw [Table.strike, Table.strike]
  generalize n.rule? = o, n'.rule? = o' at hrule
  cases hrule with
  | none => rfl
  | some hr => simp only [hr.1, hr.2, hkey]

/-- Maps with keys that go with each other list them in the same order. -/
theorem forall₂_of_increasing {l l' : List (UInt32 × NodeKey)} (hl : l.Pairwise fun a b ↦ a.1 < b.1)
    (hl' : l'.Pairwise fun a b ↦ a.1 < b.1)
    (hright : ∀ i k, (i, k) ∈ l → ∃ k', (i, k') ∈ l' ∧ ν.Kept k k')
    (hleft : ∀ i k', (i, k') ∈ l' → ∃ k, (i, k) ∈ l) :
    List.Forall₂ (fun e e' ↦ e'.1 = e.1 ∧ ν.Kept e.2 e'.2) l l' := by
  induction l generalizing l' with
  | nil =>
    cases l' with
    | nil => exact .nil
    | cons e' l' =>
      obtain ⟨k, hk⟩ := hleft e'.1 e'.2 List.mem_cons_self
      exact absurd hk List.not_mem_nil
  | cons e l ih =>
    obtain ⟨i, k⟩ := e
    obtain ⟨k', hk', hkk⟩ := hright i k List.mem_cons_self
    obtain ⟨hfirst, hl⟩ := List.pairwise_cons.1 hl
    cases l' with
    | nil => exact absurd hk' List.not_mem_nil
    | cons e' l' =>
      obtain ⟨i', x'⟩ := e'
      obtain ⟨hfirst', htail⟩ := List.pairwise_cons.1 hl'
      -- the first place of either list is not after that of the other
      have hle : i' ≤ i := by
        rcases List.mem_cons.1 hk' with he | hmem
        · exact (Prod.mk.inj he).1 ▸ UInt32.le_refl _
        · exact UInt32.le_of_lt (hfirst' _ hmem)
      have hge : i ≤ i' := by
        obtain ⟨x, hx⟩ := hleft i' x' List.mem_cons_self
        rcases List.mem_cons.1 hx with he | hmem
        · exact (Prod.mk.inj he).1 ▸ UInt32.le_refl _
        · exact UInt32.le_of_lt (hfirst _ hmem)
      obtain rfl := UInt32.le_antisymm hge hle
      have hhead : k' = x' := by
        rcases List.mem_cons.1 hk' with he | hmem
        · exact (Prod.mk.inj he).2
        · exact absurd (hfirst' _ hmem) (UInt32.lt_irrefl _)
      refine .cons ⟨rfl, hhead ▸ hkk⟩ (ih hl htail (fun j c hc ↦ ?_) fun j c' hc' ↦ ?_)
      · obtain ⟨c', hc', hcc⟩ := hright j c (List.mem_cons_of_mem _ hc)
        refine ⟨c', (List.mem_cons.1 hc').resolve_left fun he ↦ ?_, hcc⟩
        exact UInt32.lt_irrefl _ ((Prod.mk.inj he).1 ▸ hfirst _ hc)
      · obtain ⟨c, hc⟩ := hleft j c' (List.mem_cons_of_mem _ hc')
        refine ⟨c, (List.mem_cons.1 hc).resolve_left fun he ↦ ?_⟩
        exact UInt32.lt_irrefl _ ((Prod.mk.inj he).1 ▸ hfirst' _ hc')

/-- **Alike tables rank rules in the same way.** -/
theorem Alike.toList (h : Alike ν t t') :
    List.Forall₂ (fun e e' ↦ e'.1 = e.1 ∧ ν.Kept e.2 e'.2) t.rules.toList t'.rules.toList := by
  have hsorted : ∀ u : Table, u.rules.toList.Pairwise fun a b ↦ a.1 < b.1 := fun u ↦ by
    have hkeys : u.rules.toList.Pairwise fun a b ↦
        compare a.1 b.1 = .lt := Std.ExtTreeMap.ordered_keys_toList
    exact hkeys.imp fun h ↦ compareOfLessAndEq_eq_lt.1 h
  refine forall₂_of_increasing (hsorted t) (hsorted t') (fun i k hk ↦ ?_) fun i k' hk' ↦ ?_
  · rw [Std.ExtTreeMap.mem_toList_iff_getElem?_eq_some] at hk
    obtain ⟨k', hk', hkk⟩ := of_optionRel_some (hk ▸ h.rules i)
    exact ⟨k', Std.ExtTreeMap.mem_toList_iff_getElem?_eq_some.2 hk', hkk⟩
  · rw [Std.ExtTreeMap.mem_toList_iff_getElem?_eq_some] at hk'
    obtain ⟨k, hk, -⟩ := of_optionRel_some_right (hk' ▸ h.rules i)
    exact ⟨k, Std.ExtTreeMap.mem_toList_iff_getElem?_eq_some.2 hk⟩

/-- A rule and its counterpart take their places among the tables. -/
theorem alike_map_enrol {ts ts' : List Table} (h : List.Forall₂ (Alike ν) ts ts')
    (hkey : ν.Kept n.key n'.key) (hplace : n.SamePlace n') :
    List.Forall₂ (Alike ν) (ts.map (Table.enrol n)) (ts'.map (Table.enrol n')) := by
  rw [List.forall₂_map_left_iff, List.forall₂_map_right_iff]
  exact h.imp fun _ _ ht ↦ ht.enrol hkey hplace

/-- A rule and its counterpart leave their places. -/
theorem alike_map_strike {ts ts' : List Table} (h : List.Forall₂ (Alike ν) ts ts')
    (hν : ν.Injective) (hkey : ν.Kept n.key n'.key) (hplace : n.SamePlace n') :
    List.Forall₂ (Alike ν) (ts.map (Table.strike n)) (ts'.map (Table.strike n')) := by
  rw [List.forall₂_map_left_iff, List.forall₂_map_right_iff]
  exact h.imp fun _ _ ht ↦ ht.strike hν hkey hplace

/-- The same table is taken out. -/
theorem alike_filter {ts ts' : List Table} (h : List.Forall₂ (Alike ν) ts ts') (id : TableId) :
    List.Forall₂ (Alike ν) (ts.filter (·.id ≠ id)) (ts'.filter (·.id ≠ id)) := by
  have hculled : Culled (Alike ν) (fun _ ↦ False) ts ts' := .of_forall₂ h
  exact (hculled.filter fun t t' ht ↦ by rw [ht.id]).forall₂ fun _ _ hno ↦ hno

/-- Alike tables have the same identifiers. -/
theorem map_id_eq {ts ts' : List Table} (h : List.Forall₂ (Alike ν) ts ts') :
    ts'.map Table.id = ts.map Table.id := by
  induction h with
  | nil => rfl
  | cons ht _ ih => rw [List.map_cons, List.map_cons, ht.id, ih]

/-- The rules of a table are called the same in both runs. -/
def Unrenamed (ν : Lexicon NodeKey Unit) (names names' : List (NodeKey × NodeId))
    (t : Table) : Prop :=
  ∀ (index : UInt32) key, t.rules[index]? = some key →
    ∀ x ∈ names, ∀ x' ∈ names', x.1 = key → ν.Kept key x'.1 → x'.2 = x.2

/-- A lost source comes, which has no place in a table. -/
theorem Unrenamed.enrol_lost (h : t.Unrenamed ν names names') (hν : ν.Grows ν')
    (hold : ∀ (index : UInt32) key, t.rules[index]? = some key →
      key ≠ n.key ∧ ∃ key', ν.Kept key key') :
    t.Unrenamed ν' (names ++ [n.name]) names' := by
  intro index key hkey x hx x' hx' hxkey hkk
  obtain ⟨hne, key', hkept⟩ := hold index key hkey
  refine h index key hkey x ?_ x' hx' hxkey (hkk.of_grows hν ⟨_, hkept⟩)
  refine (List.mem_append.1 hx).resolve_right fun hnew ↦ hne ?_
  rw [← hxkey, List.mem_singleton.1 hnew, Node.name]

/-- **A rule that comes is called the same as its counterpart.** -/
theorem Unrenamed.enrol (h : t.Unrenamed ν names names') (hν : ν.Grows ν')
    (hold : ∀ (index : UInt32) key, t.rules[index]? = some key →
      key ≠ n.key ∧ ∃ key', ν.Kept key key' ∧ key' ≠ n'.key)
    (hnew : ∀ x ∈ names, x.1 ≠ n.key) (hnew' : ∀ x' ∈ names', x'.1 ≠ n'.key)
    (hkey : ν'.Kept n.key n'.key) (hid : ∀ r, n.rule? = some r → n'.id = n.id) :
    (t.enrol n).Unrenamed ν' (names ++ [n.name]) (names' ++ [n'.name]) := by
  have hstays : t.Unrenamed ν' (names ++ [n.name]) (names' ++ [n'.name]) := by
    intro index key hkey x hx x' hx' hxkey hkk
    obtain ⟨hne, key', hkept, hne'⟩ := hold index key hkey
    refine (h.enrol_lost hν fun i k hk ↦ (hold i k hk).imp_right fun ⟨l, hl, _⟩ ↦ ⟨l, hl⟩) index key
      hkey x hx x' ?_ hxkey hkk
    refine (List.mem_append.1 hx').resolve_right fun hnew ↦ hne' ?_
    rw [(hkept.grow hν).unique hkk, List.mem_singleton.1 hnew, Node.name]
  rw [Table.enrol]
  split
  · rename_i r hr
    split
    · intro index key hplace x hx x' hx' hxkey hkk
      rw [Std.ExtTreeMap.getElem?_insert] at hplace
      split at hplace
      · obtain rfl := Option.some.inj hplace
        have hx : x = n.name := List.mem_singleton.1 <|
          (List.mem_append.1 hx).resolve_left fun hmem ↦ hnew x hmem hxkey
        have hx' : x' = n'.name := List.mem_singleton.1 <|
          (List.mem_append.1 hx').resolve_left fun hmem ↦ hnew' x' hmem (hkk.unique hkey)
        rw [hx, hx']
        exact hid r hr
      · exact hstays index key hplace x hx x' hx' hxkey hkk
    · exact hstays
  · exact hstays

/-- A node leaves, and the rest is called as before. -/
theorem Unrenamed.strike (h : t.Unrenamed ν names names') {p p' : NodeKey × NodeId → Bool} :
    (t.strike n).Unrenamed ν (names.filter p) (names'.filter p') := by
  intro index key hkey x hx x' hx'
  refine h index key ?_ x (List.mem_of_mem_filter hx) x' (List.mem_of_mem_filter hx')
  rw [Table.strike] at hkey
  split at hkey
  · split at hkey
    · rw [Std.ExtTreeMap.getElem?_erase] at hkey
      split at hkey
      · exact absurd hkey (by simp)
      · exact hkey
    · exact hkey
  · exact hkey

end Table

/-! ### Directories -/

namespace Directory

/-- The lists at every port are alike, without the sources that are lost. -/
structure Alike (ν : Lexicon NodeKey Unit) (d d' : Directory) : Prop where
  entrances : ∀ p, Culled ν.Kept (fun _ ↦ False) (d.entrances.listed p) (d'.entrances.listed p)
  exits : ∀ q, Culled ν.Kept (ν.Lost ()) (d.exits.listed q) (d'.exits.listed q)

/-- Empty directories are alike. -/
theorem alike_empty : Alike ν empty empty where
  entrances _ := by simpa only [empty, PortMap.listed_empty] using Culled.nil
  exits _ := by simpa only [empty, PortMap.listed_empty] using Culled.nil

/-- More names were added meanwhile, and lost sources stay lost. -/
theorem Alike.grow (h : Alike ν d d') (hν : ν.Grows ν') : Alike ν' d d' where
  entrances p := (h.entrances p).imp (fun _ _ hk ↦ hk.grow hν) fun _ hno ↦ hno
  exits q := (h.exits q).imp (fun _ _ hk ↦ hk.grow hν) fun _ hk ↦ hk.grow hν

/-- **A node and its counterpart are entered.** -/
theorem Alike.enrol (h : Alike ν d d') (hkey : ν.Kept n.key n'.key) (hplace : n.SamePlace n') :
    Alike ν (d.enrol n) (d'.enrol n') where
  entrances p := by
    simp only [Directory.enrol, PortMap.listed_pushAll, hplace.inPorts]
    split
    · exact (h.entrances p).append (.single hkey)
    · exact h.entrances p
  exits q := by
    simp only [Directory.enrol, PortMap.listed_pushAll, hplace.outPorts]
    split
    · exact (h.exits q).append (.single hkey)
    · exact h.exits q

/-- **A lost source is entered.** -/
theorem Alike.enrol_lost (h : Alike ν d d') (hkey : ν.Lost () n.key) (hports : n.inPorts = .empty) :
    Alike ν (d.enrol n) d' where
  entrances p := by
    simp only [Directory.enrol, PortMap.listed_pushAll, hports]
    exact h.entrances p
  exits q := by
    simp only [Directory.enrol, PortMap.listed_pushAll]
    split
    · simpa using (h.exits q).append (.skip hkey .nil)
    · exact h.exits q

/-- **A node and its counterpart are struck out.** -/
theorem Alike.strike (h : Alike ν d d') (hν : ν.Injective) (hkey : ν.Kept n.key n'.key)
    (hplace : n.SamePlace n') : Alike ν (d.strike n) (d'.strike n') where
  entrances p := by
    simp only [Directory.strike, PortMap.listed_retractAll, hplace.inPorts]
    split
    · exact (h.entrances p).filter fun _ _ hk ↦ hν.decide_ne hk hkey
    · exact h.entrances p
  exits q := by
    simp only [Directory.strike, PortMap.listed_retractAll, hplace.outPorts]
    split
    · exact (h.exits q).filter fun _ _ hk ↦ hν.decide_ne hk hkey
    · exact h.exits q

/-- **A lost source is struck out.** -/
theorem Alike.strike_lost (h : Alike ν d d') (hkey : ν.Lost () n.key) :
    Alike ν (d.strike n) d' := by
  have hkeep : ∀ key key', ν.Kept key key' → decide (key ≠ n.key) = true := fun key key' hk ↦ by
    refine decide_eq_true ?_
    rintro rfl
    exact hk.not_lost hkey
  refine ⟨fun p ↦ ?_, fun q ↦ ?_⟩
  · simp only [Directory.strike, PortMap.listed_retractAll]
    split
    · exact (h.entrances p).filter_left hkeep
    · exact h.entrances p
  · simp only [Directory.strike, PortMap.listed_retractAll]
    split
    · exact (h.exits q).filter_left hkeep
    · exact h.exits q

/-- A node is entered by its name and by its ports. -/
theorem enrol_congr (hname : n'.name = n.name) (hplace : n.SamePlace n') (d : Directory) :
    d.enrol n' = d.enrol n := by
  obtain ⟨hkey, hid⟩ := Prod.mk.inj hname
  simp only [Directory.enrol, hkey, hid, hplace.inPorts, hplace.outPorts, hplace.type]

/-- A node is struck out by its name and by its ports. -/
theorem strike_congr (hname : n'.name = n.name) (hplace : n.SamePlace n') (d : Directory) :
    d.strike n' = d.strike n := by
  obtain ⟨hkey, hid⟩ := Prod.mk.inj hname
  simp only [Directory.strike, hkey, hid, hplace.inPorts, hplace.outPorts]

/-! ### Identifiers -/

/-- The counterpart of a node that is found by its identifier is found by its own. -/
def Reaches (ν : Lexicon NodeKey Unit) (d d' : Directory)
    (names names' : List (NodeKey × NodeId)) : Prop :=
  ∀ k ∈ names, ∀ k' ∈ names', ν.Kept k.1 k'.1 → d.ids[k.2]? = some k.1 → d'.ids[k'.2]? = some k'.1

/-- The nodes that are called by an identifier in the second run have the same one in the first. -/
def Discerned (ν : Lexicon NodeKey Unit) (names names' : List (NodeKey × NodeId))
    (id id' : NodeId) : Prop :=
  ∀ k ∈ names, ∀ k' ∈ names', ν.Kept k.1 k'.1 → k'.2 = id' → k.2 = id

/-- Names were added for nodes that are not there yet. -/
theorem Reaches.grow (h : Reaches ν d d' names names') (hν : ν.Grows ν')
    (hknown : ∀ k ∈ names, ∃ x, ν k.1 = some x) : Reaches ν' d d' names names' := by
  intro k hk k' hk' hkk hid
  exact h k hk k' hk' (hkk.of_grows hν (hknown k hk)) hid

/-- Names were added, and what is told apart still is. -/
theorem Discerned.grow {id id' : NodeId} (h : Discerned ν names names' id id') (hν : ν.Grows ν')
    (hknown : ∀ k ∈ names, ∃ x, ν k.1 = some x) : Discerned ν' names names' id id' := by
  intro k hk k' hk' hkk hid
  exact h k hk k' hk' (hkk.of_grows hν (hknown k hk)) hid

/-- **A node and its counterpart are entered**, under keys that no node has. -/
theorem Reaches.enrol (h : Reaches ν d d' names names') (hnew : ∀ k ∈ names, k.1 ≠ n.key)
    (hnew' : ∀ k' ∈ names', k'.1 ≠ n'.key) (hν : ν.Injective) (hkey : ν.Kept n.key n'.key)
    (hdiscern : Discerned ν names names' n.id n'.id) :
    Reaches ν (d.enrol n) (d'.enrol n') (names ++ [n.name]) (names' ++ [n'.name]) := by
  intro k hk k' hk' hkk hid
  have hsame : k.1 = n.key ↔ k'.1 = n'.key := hν.eq_iff hkk hkey
  simp only [Directory.enrol, Std.ExtTreeMap.getElem?_insert, Std.compare_eq_iff_eq] at hid ⊢
  rcases List.mem_append.1 hk' with hk' | hk'
  · have hk : k ∈ names := (List.mem_append.1 hk).resolve_right fun hkn ↦
      hnew' k' hk' (hsame.1 (congrArg Prod.fst (List.mem_singleton.1 hkn)))
    have hne : ¬ n.id = k.2 := fun he ↦ by
      rw [if_pos he] at hid
      exact hnew k hk (Option.some.inj hid).symm
    rw [if_neg hne] at hid
    rw [if_neg fun he ↦ hne (hdiscern k hk k' hk' hkk he.symm).symm]
    exact h k hk k' hk' hkk hid
  · obtain rfl := List.mem_singleton.1 hk'
    exact if_pos rfl

/-- A lost source is entered, and whatever it hides is not asked for. -/
theorem Reaches.enrol_lost (h : Reaches ν d d' names names') (hkey : ν.Lost () n.key) :
    Reaches ν (d.enrol n) d' (names ++ [n.name]) names' := by
  intro k hk k' hk' hkk hid
  have hne : n.key ≠ k.1 := fun he ↦ hkk.not_lost (he ▸ hkey)
  rw [Directory.enrol, Std.ExtTreeMap.getElem?_insert] at hid
  split at hid
  · exact absurd (Option.some.inj hid) hne
  · refine h k ((List.mem_append.1 hk).resolve_right fun hkn ↦ hne ?_) k' hk' hkk hid
    rw [List.mem_singleton.1 hkn]
    rfl

/-- **A node and its counterpart are struck out.** -/
theorem Reaches.strike (h : Reaches ν d d' names names')
    (hdiscern : Discerned ν names names' n.id n'.id) :
    Reaches ν (d.strike n) (d'.strike n') (names.filter (·.1 ≠ n.key))
      (names'.filter (·.1 ≠ n'.key)) := by
  intro k hk k' hk' hkk hid
  have hk := List.mem_of_mem_filter hk
  have hk' := List.mem_of_mem_filter hk'
  simp only [Directory.strike, Std.ExtTreeMap.getElem?_erase, Std.compare_eq_iff_eq] at hid ⊢
  split at hid
  · exact absurd hid (by simp)
  · rename_i hne
    rw [if_neg fun he ↦ hne (hdiscern k hk k' hk' hkk he.symm).symm]
    exact h k hk k' hk' hkk hid

/-- A lost source is struck out. -/
theorem Reaches.strike_lost (h : Reaches ν d d' names names') :
    Reaches ν (d.strike n) d' (names.filter (·.1 ≠ n.key)) names' := by
  intro k hk k' hk' hkk hid
  rw [Directory.strike, Std.ExtTreeMap.getElem?_erase] at hid
  split at hid
  · exact absurd hid (by simp)
  · exact h k (List.mem_of_mem_filter hk) k' hk' hkk hid

end Directory

/-! ### The same names -/

/-- **Nodes of the same name are entered alike** if they are found at the same places. -/
theorem Registry.enrol_congr (hname : n'.name = n.name) (hplace : n.SamePlace n') (r : Registry) :
    r.enrol n' = r.enrol n := by
  rw [Registry.enrol, Registry.enrol, Directory.enrol_congr hname hplace,
    funext (Table.enrol_congr (Prod.mk.inj hname).1 hplace)]

/-- Nodes of the same name are struck out alike. -/
theorem Registry.strike_congr (hname : n'.name = n.name) (hplace : n.SamePlace n') (r : Registry) :
    r.strike n' = r.strike n := by
  rw [Registry.strike, Registry.strike, Directory.strike_congr hname hplace,
    funext (Table.strike_congr (Prod.mk.inj hname).1 hplace)]

end HeaderFlow
