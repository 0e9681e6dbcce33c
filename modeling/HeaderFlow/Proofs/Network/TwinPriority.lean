import HeaderFlow.Network.Mutation
import HeaderFlow.Proofs.Network.TwinRefresh

/-!
# Priority in twin networks

All rules of a network are there in its twin, at the same places of the same tables, and win and
lose against each other as they do there. **Influences have the same handles in both**, since
nothing of a lost source is a rule.

So what is computed from the rules of a table is computed alike: which rules earlier ones cover
(`Twins.coverage`), with which of them a new rule has influences (`influencesWith`), and what an
audit finds (`Twins.auditTables`). From this it follows that a rule that is related to the others
gets the same influences and takes the same headers from flows (`follows_relate`,
`follows_takeWon`), and that a rule that goes gives them back (`follows_release`). The flows
themselves are those of both networks, culled where they are lost.

A list of rules with their places is compared as a whole (`Placed`), since places are the same and
only keys differ.
-/

namespace HeaderFlow

open Checked (tracks_ok)

variable {n m : Nat} {T : Comparison n m} {ν ν' : Naming} {net net' : Network} {key key' : NodeKey}
  {k k' : Node} {r r' : Rule} {p p' : Pattern} {s s' : Space} {i i' : Influence}

namespace Comparison

/-! ### Rules -/

/-- A rule and its counterpart are called the same. -/
abbrev RuleNodes (T : Comparison n m) (ν : Naming) (k k' : Node) : Prop :=
  T.Nodes ν k k' ∧ k'.id = k.id

/-- Rules and their counterparts, with their places. -/
abbrev Placed (T : Comparison n m) (ν : Naming) (l l' : List (UInt32 × Node)) : Prop :=
  Culled (fun e e' ↦ e'.1 = e.1 ∧ T.RuleNodes ν e.2 e'.2) (fun _ ↦ False) l l'

/-- A rule and its counterpart are changed, and stay where they are. -/
theorem Nodes.mapRule {g g' : Rule → Rule} (hk : T.Nodes ν k k')
    (hplace : ∀ r, (g r).table = r.table ∧ (g r).index = r.index)
    (hg : ∀ r r', T.Rules r r' → T.Rules (g r) (g' r')) :
    T.Nodes ν (k.mapRule g) (k'.mapRule g') := by
  have hrole := hk.role
  rw [Node.mapRule, Node.mapRule]
  generalize hr : k.role = r at hrole
  generalize k'.role = r' at hrole
  cases hrole with
  | rule hrule => exact { hk with
      called := (hr ▸ hk.called).of_place (hplace _)
      role := .rule (hg _ _ hrule) }
  | source => exact hk
  | probe => exact hk

/-- A table is there in both networks or in neither. -/
theorem Twins.table? (hT : T.Twins ν net net') (id : TableId) :
    Option.Rel (Table.Alike ν.node) (net.table? id) (net'.table? id) := by
  have htables : Culled (Table.Alike ν.node) (fun _ ↦ False) net.tables net'.tables :=
    .of_forall₂ hT.tables
  exact htables.find? (fun t t' ht ↦ by rw [ht.id]) fun _ hno ↦ hno.elim

/-- **A table ranks the same rules in both networks**, which are called the same. -/
theorem Twins.ranking (hT : T.Twins ν net net') (table : TableId) :
    List.Forall₂ (fun e e' ↦ e'.1 = e.1 ∧ ν.node.Kept e.2 e'.2 ∧ ∀ k ∈ net.nodes, ∀ k' ∈ net'.nodes,
      k.key = e.2 → k'.key = e'.2 → k'.id = k.id) (net.ranking table) (net'.ranking table) := by
  have htable := hT.table? table
  rw [Network.ranking, Network.ranking]
  cases ht : net.table? table with
  | none =>
    rw [ht] at htable
    rw [of_optionRel_none htable]
    exact .nil
  | some t =>
    obtain ⟨t', ht', halike⟩ := of_optionRel_some (ht ▸ htable)
    rw [ht', Option.elim_some, Option.elim_some]
    have hplaced : ∀ e ∈ t.rules.toList, t.rules[e.1]? = some e.2 := fun e he ↦
      Std.ExtTreeMap.mem_toList_iff_getElem?_eq_some.1 he
    refine ((List.forall₂_and_left _ _).2 ⟨hplaced, halike.toList⟩).imp fun e e' hboth ↦ ?_
    obtain ⟨he, hindex, hkept⟩ := hboth
    refine ⟨hindex, hkept, fun k hk k' hk' hkey hkey' ↦ ?_⟩
    exact hT.unrenamed t (List.mem_of_find?_eq_some ht) e.1 e.2 he k.name
      (List.mem_map_of_mem hk) k'.name
      (List.mem_map_of_mem hk') hkey (show ν.node.Kept e.2 k'.key from hkey' ▸ hkept)

/-- **A table has the same rules in both networks**, in the same order. -/
theorem Twins.rulesOf (hT : T.Twins ν net net') (table : TableId) :
    Checked.Tracks (net.rulesOf table) (net'.rulesOf table) (Placed T ν) := by
  rw [Network.rulesOf, Network.rulesOf]
  refine (Checked.tracks_mapM_of_forall₂ ((hT.ranking table).imp fun e e' hsame ↦ ?_)).imp
    fun _ _ hl ↦ .of_forall₂ hl
  obtain ⟨hindex, hkept, hid⟩ := hsame
  obtain ⟨i, key⟩ := e
  obtain ⟨i', key'⟩ := e'
  obtain rfl : i' = i := hindex
  intro x hx
  obtain ⟨k, hk, hx⟩ := Checked.bind_eq_ok.1 hx
  obtain rfl := Except.ok.inj hx
  obtain ⟨k', hk', hkk⟩ := hT.tracks_node hkept k hk
  obtain ⟨hmem, hkey⟩ := Engine.nodeAt?_eq_some (Engine.node_eq_ok.1 hk)
  obtain ⟨hmem', hkey'⟩ := Engine.nodeAt?_eq_some (Engine.node_eq_ok.1 hk')
  exact ⟨(i', k'), Checked.bind_eq_ok.2 ⟨k', hk', rfl⟩, rfl, hkk, hid k hmem k' hmem' hkey hkey'⟩

/-! ### Coverage -/

/-- The same is gathered from rules that go with each other. -/
theorem gather {ports : PortSet} {ks ks' : List Node} (hp : T.pattern p p') (hs : T.space s s')
    (hks : Culled (T.RuleNodes ν) (fun _ ↦ False) ks ks') :
    Checked.Tracks (Network.gather p ports s ks) (Network.gather p' ports s' ks') fun o o' ↦
      T.space o.1 o'.1 ∧ o'.2 = o.2 := by
  induction hks generalizing s s' with
  | nil => exact tracks_ok ⟨hs, rfl⟩
  | skip hno => exact hno.elim
  | @keep k k' ks ks' hk _ ih =>
    have haccepts := hk.1.accepts
    rw [Network.gather, Network.gather, hk.1.inPorts, hk.2]
    generalize k.accepts = o at haccepts
    generalize k'.accepts = o' at haccepts
    cases haccepts with
    | none => exact ih hs
    | @some q q' hq =>
      dsimp only
      split
      · refine (T.intersect hp hq).bind fun c c' hc ↦ (T.addPattern hs hq).bind fun t t' ht ↦ ?_
        refine (ih ht).bind ?_
        rintro ⟨u, related⟩ ⟨u', related'⟩ ⟨hu, hrelated⟩
        obtain rfl : related' = related := hrelated
        refine tracks_ok ⟨hu, ?_⟩
        rw [← optionRel_isSome hc]
      · exact ih hs

/-- **Rules are covered alike.** -/
theorem Twins.coverage {ks ks' : List Node} (hT : T.Twins ν net net') (hk : T.Nodes ν k k')
    (hks : Culled (T.RuleNodes ν) (fun _ ↦ False) ks ks') :
    Checked.Tracks (net.coverage k ks) (net'.coverage k' ks') Eq := by
  have haccepts := hk.accepts
  have hempty : T.space (.empty net.bytes) (.empty net'.bytes) := by
    rw [hT.bytes, hT.bytes']
    exact T.empty
  have hall : T.space (.all net.bytes) (.all net'.bytes) := by
    rw [hT.bytes, hT.bytes']
    exact T.all
  rw [Network.coverage, Network.coverage, hk.inPorts]
  generalize k.accepts = o at haccepts
  generalize k'.accepts = o' at haccepts
  cases haccepts with
  | none => exact tracks_ok rfl
  | @some p p' hp =>
    refine (gather hp hempty hks).bind ?_
    rintro ⟨u, related⟩ ⟨u', related'⟩ ⟨hu, hrelated⟩
    obtain rfl : related' = related := hrelated
    dsimp only
    rw [T.isEmpty hu]
    split
    · exact tracks_ok rfl
    refine (T.simplify hu).bind fun v v' hv ↦ (T.isEqual hv hall).bind ?_
    rintro universal _ rfl
    refine (T.isSubset (T.ofPattern hp) hv).bind ?_
    rintro covers _ rfl
    exact tracks_ok rfl

/-! ### Influences -/

/-- What a rule shares with a new one is alike. -/
theorem shared {ports : PortSet} (hk : T.Nodes ν k k') (hp : T.pattern p p') :
    Checked.Tracks (Network.shared p ports k) (Network.shared p' ports k')
      (Option.Rel T.pattern) := by
  have haccepts := hk.accepts
  rw [Network.shared, Network.shared]
  split
  · exact tracks_ok .none
  generalize k.accepts = o at haccepts
  generalize k'.accepts = o' at haccepts
  cases haccepts with
  | none => exact tracks_ok .none
  | some hq => exact T.intersect hp hq

/-- **A new rule needs the same influences.** -/
theorem influencesWith {index : UInt32} {l l' : List (UInt32 × Node)} (hk : T.Nodes ν k k')
    (hp : T.pattern p p') (hl : Placed T ν l l') :
    Checked.Tracks (Network.influencesWith k index p l) (Network.influencesWith k' index p' l')
      (Culled (T.Influences ν) (fun _ ↦ False)) := by
  induction hl with
  | nil => exact tracks_ok .nil
  | skip hno => exact hno.elim
  | @keep e e' l l' he _ ih =>
    obtain ⟨i, c⟩ := e
    obtain ⟨i', c'⟩ := e'
    obtain ⟨rfl, hc, -⟩ := he
    have hc : T.Nodes ν c c' := hc
    simp only [Network.influencesWith, hc.inPorts, hk.inPorts]
    refine (shared hc hp).bind fun o o' ho ↦ ih.bind fun created created' hcreated ↦ tracks_ok ?_
    cases ho with
    | none => exact hcreated
    | @some common common' hcommon =>
      refine .keep ?_ hcreated
      split
      · exact ⟨hc.key, hk.key, hcommon, rfl⟩
      · exact ⟨hk.key, hc.key, hcommon, rfl⟩

/-! ### Audits -/

/-- The same is found about a rule. -/
theorem Twins.auditRule {table : TableId} {before before' after after' : List Node}
    (hT : T.Twins ν net net') (hk : T.RuleNodes ν k k')
    (hbefore : Culled (T.RuleNodes ν) (fun _ ↦ False) before before')
    (hafter : Culled (T.RuleNodes ν) (fun _ ↦ False) after after') :
    Checked.Tracks (net.auditRule table before k after)
      (net'.auditRule table before' k' after') Eq := by
  have hcoverage : ∀ (b : Bool) ks ks' {J J' : Coverage → Checked (List Anomaly)},
      Culled (T.RuleNodes ν) (fun _ ↦ False) ks ks' → (∀ c, Checked.Tracks (J c) (J' c) Eq) →
      Checked.Tracks (if b then net.coverage k ks >>= J else pure {} >>= J)
        (if b then net'.coverage k' ks' >>= J' else pure {} >>= J') Eq := by
    intro b ks ks' J J' hks hJ
    cases b
    · exact hJ {}
    · refine (hT.coverage hk.1 hks).bind ?_
      rintro c _ rfl
      exact hJ c
  rw [Network.auditRule, Network.auditRule, hT.settings.anomalies, hk.2]
  exact hcoverage _ _ _ hbefore fun above ↦ hcoverage _ _ _ hafter fun below ↦ tracks_ok rfl

/-- The same is found about the rules of a table. -/
theorem Twins.auditRules {table : TableId} {before before' ks ks' : List Node}
    (hT : T.Twins ν net net')
    (hbefore : Culled (T.RuleNodes ν) (fun _ ↦ False) before before')
    (hks : Culled (T.RuleNodes ν) (fun _ ↦ False) ks ks') :
    Checked.Tracks (net.auditRules table before ks) (net'.auditRules table before' ks') Eq := by
  induction hks generalizing before before' with
  | nil => exact tracks_ok rfl
  | skip hno => exact hno.elim
  | keep hk hks ih =>
    refine (hT.auditRule hk hbefore hks).bind ?_
    rintro here _ rfl
    refine (ih (hbefore.append (.single hk))).bind ?_
    rintro more _ rfl
    exact tracks_ok rfl

/-- **An audit finds the same.** -/
theorem Twins.auditTables (hT : T.Twins ν net net') (tables : List TableId) :
    Checked.Tracks (net.auditTables tables) (net'.auditTables tables) Eq := by
  induction tables with
  | nil => exact tracks_ok rfl
  | cons t ts ih =>
    refine (hT.rulesOf t).bind fun l l' hl ↦ ?_
    refine (hT.auditRules .nil (hl.map (fun _ _ he ↦ he.2) fun _ hno ↦ hno)).bind ?_
    rintro here _ rfl
    refine ih.bind ?_
    rintro more _ rfl
    exact tracks_ok rfl

end Comparison

namespace Engine

/-! ### Relating a rule -/

/-- A rule and its counterpart are changed. -/
theorem follows_mapRule {g g' : Rule → Rule} (hkey : ν.node.Kept key key')
    (hplace : ∀ r, (g r).table = r.table ∧ (g r).index = r.index)
    (hg : ∀ r r', T.Rules r r' → T.Rules (g r) (g' r')) :
    Follows T ν (updateNode key (Node.mapRule g)) (updateNode key' (Node.mapRule g')) := by
  have hname : ∀ (g : Rule → Rule) (k : Node), (k.mapRule g).name = k.name := fun g k ↦ by
    rw [Node.mapRule]
    split <;> rfl
  exact follows_updateNode hkey (fun k ↦ ⟨hname g k, hname g' k⟩) fun k k' hk ↦ hk.mapRule hplace hg

/-- An influence and its counterpart are stored under one handle. -/
theorem follows_addInfluence (hi : T.Influences ν i i') :
    Follows T ν (addInfluence i) (addInfluence i') := by
  refine tracks_network_bind fun net net' hT ↦ ?_
  rw [hT.influences.nextHandle_eq]
  refine (follows_update fun _ _ hT ↦ hT.insertInfluence hi).next fun ν₁ hν₁ ↦ ?_
  have hwon := hi.influencer.grow hν₁.node
  refine Follows.next (tracks_node_bind hwon fun _ _ _ ↦
    follows_mapRule hwon (fun _ ↦ ⟨rfl, rfl⟩) fun r r' hr ↦ ?_)
    fun ν₂ hν₂ ↦ ?_
  · exact { hr with effectOn := congrArg (· ++ _) hr.effectOn }
  have hlost := hi.influenced.grow (hν₁.trans hν₂).node
  refine tracks_node_bind hlost fun _ _ _ ↦
    follows_mapRule hlost (fun _ ↦ ⟨rfl, rfl⟩) fun r r' hr ↦ ?_
  exact { hr with influencedBy := congrArg (· ++ _) hr.influencedBy }

/-- Coverage is reported alike. -/
theorem follows_reportCoverage (id : NodeId) (c : Coverage) :
    Follows T ν (reportCoverage id c) (reportCoverage id c) := by
  unfold reportCoverage
  split
  · exact tracks_event_bind fun e e' he ↦ follows_report (fun _ ↦ rfl) fun hevents ↦ by
      rw [he hevents]
  split
  · exact tracks_event_bind fun e e' he ↦ follows_report (fun _ ↦ rfl) fun hevents ↦ by
      rw [he hevents]
  · exact follows_pure

/-- A new rule is covered alike. -/
theorem tracks_coverageAbove {index : UInt32} {l l' : List (UInt32 × Node)}
    (hT : T.Twins ν net net') (hk : T.Nodes ν k k') (hl : T.Placed ν l l') :
    Checked.Tracks (coverageAbove k index l net) (coverageAbove k' index l' net') Eq := by
  rw [coverageAbove, coverageAbove, hT.settings.checkShadow]
  split
  · refine hT.coverage hk ((hl.filter fun e e' he ↦ ?_).map (fun _ _ he ↦ he.2) fun _ hno ↦ hno)
    show (decide (e.1 < index) && !(e.2.inPorts.inter k.inPorts).isEmpty) =
      (decide (e'.1 < index) && !(e'.2.inPorts.inter k'.inPorts).isEmpty)
    rw [he.1, he.2.1.inPorts, hk.inPorts]
  · exact tracks_ok rfl

/-- **A new rule is related to the same rules.** -/
theorem follows_relate (hkey : ν.node.Kept key key') : Follows T ν (relate key) (relate key') := by
  refine tracks_node_bind hkey fun k k' hk ↦ ?_
  have hrule := hk.rule?
  generalize hr : k.rule? = o at hrule
  generalize k'.rule? = o' at hrule
  cases hrule with
  | none => exact follows_pure
  | @some r r' hrr =>
    have haccepts := hk.accepts
    dsimp only
    generalize k.accepts = o at haccepts
    generalize k'.accepts = o' at haccepts
    cases haccepts with
    | none => exact follows_pure
    | @some p p' hp =>
      rw [hrr.table, hrr.index, (hk.id_of_rule hr).2]
      refine tracks_of_twins fun ⟨_, _, hT⟩ ↦
        tracks_ask_bind (fun _ _ hT ↦ hT.rulesOf r.table) fun l l' hl ↦ ?_
      have hothers : T.Placed ν (l.filter fun e ↦ e.2.key ≠ key)
          (l'.filter fun e ↦ e.2.key ≠ key') :=
        hl.filter fun _ _ he ↦ hT.injective.decide_ne he.2.1.key hkey
      refine tracks_check_bind (Comparison.influencesWith hk hp hothers)
        fun created created' hcreated ↦ ?_
      refine tracks_ask_bind (fun _ _ hT ↦ tracks_coverageAbove hT hk hothers) ?_
      rintro found _ rfl
      refine Follows.next ?_ fun ν₁ hν₁ ↦ follows_reportCoverage _ _
      exact follows_forM_all hcreated fun ν₁ i i' hν₁ hi ↦ follows_addInfluence (hi.grow hν₁)

/-- **A new rule takes what it wins from the same flows.** -/
theorem follows_takeWon (hkey : ν.node.Kept key key') :
    Follows T ν (takeWon key) (takeWon key') := by
  refine tracks_node_bind hkey fun k k' hk ↦ ?_
  have hrule := hk.rule?
  generalize k.rule? = o at hrule
  generalize k'.rule? = o' at hrule
  cases hrule with
  | none => exact follows_pure
  | @some r r' hrr =>
    dsimp only
    rw [hrr.effectOn]
    refine follows_forM_same fun ν₁ c hν₁ ↦ tracks_network_bind fun net net' hT ↦ ?_
    have hi := hT.influences.found c
    generalize net.influences.find? c = o at hi
    generalize net'.influences.find? c = o' at hi
    cases hi with
    | none => exact follows_pure
    | @some i i' hi =>
      dsimp only
      rw [hi.ports]
      exact follows_refreshFlows hi.influenced (.some hi.common)

/-! ### Releasing a rule -/

/-- An influence and its counterpart are removed. -/
theorem tracks_removeInfluence (c : Handle) :
    Tracks T ν (removeInfluence c) (removeInfluence c) fun ν' o o' ↦
      Option.Rel (T.Influences ν') o o' := by
  refine tracks_network_bind fun net net' hT ↦ ?_
  refine (follows_update fun _ _ hT ↦ hT.eraseInfluence c).next fun ν₁ hν₁ ↦ tracks_pure ?_
  exact optionRel_imp (hT.influences.found c) fun _ _ hi ↦ hi.grow hν₁

/-- The node of an influence is changed by the key that it is found under. -/
theorem follows_mapRule_found {g : Rule → Rule} (hkey : ν.node.Kept key key')
    (hplace : ∀ r, (g r).table = r.table ∧ (g r).index = r.index)
    (hg : ∀ r r', T.Rules r r' → T.Rules (g r) (g r')) :
    Follows T ν (do updateNode (← node key).key (Node.mapRule g))
      (do updateNode (← node key').key (Node.mapRule g)) :=
  tracks_node_bind hkey fun _ _ hk ↦ follows_mapRule hk.key hplace hg

/-- A rule loses an influence of an earlier one. -/
theorem follows_dropLost (c : Handle) : Follows T ν (dropLost c) (dropLost c) := by
  refine (tracks_removeInfluence c).bind fun ν₁ o o' hν₁ ho ↦ ?_
  cases ho with
  | none => exact follows_pure
  | some hi =>
    exact follows_mapRule_found hi.influencer (fun _ ↦ ⟨rfl, rfl⟩) fun r r' hr ↦ { hr with
      effectOn := congrArg (List.filter (· ≠ c)) hr.effectOn }

/-- A rule loses its influences on later ones, which are listed alike. -/
theorem tracks_dropWon (cs : List Handle) :
    Tracks T ν (dropWon cs) (dropWon cs) fun ν' l l' ↦
      Culled (T.Influences ν') (fun _ ↦ False) l l' := by
  induction cs generalizing ν with
  | nil => exact tracks_pure .nil
  | cons c cs ih =>
    refine (tracks_removeInfluence c).bind fun ν₁ o o' hν₁ ho ↦ ?_
    cases ho with
    | none => exact ih
    | @some i i' hi =>
      refine tracks_node_bind hi.influenced fun k k' hk ↦ ?_
      refine Follows.next (follows_mapRule hk.key (fun _ ↦ ⟨rfl, rfl⟩) fun r r' hr ↦ { hr with
        influencedBy := congrArg (List.filter (· ≠ c)) hr.influencedBy }) fun ν₂ hν₂ ↦ ?_
      exact ih.bind fun ν₃ l l' hν₃ hl ↦ tracks_pure (.keep (hi.grow (hν₂.trans hν₃)) hl)

/-- **The influences of a rule are removed**, and the same flows get headers back. -/
theorem follows_release (hkey : ν.node.Kept key key') :
    Follows T ν (release key) (release key') := by
  refine tracks_node_bind hkey fun k k' hk ↦ ?_
  have hrule := hk.rule?
  generalize k.rule? = o at hrule
  generalize k'.rule? = o' at hrule
  cases hrule with
  | none => exact follows_pure
  | @some r r' hrr =>
    dsimp only
    rw [hrr.influencedBy, hrr.effectOn]
    refine Follows.next (follows_mapRule hkey (fun _ ↦ ⟨rfl, rfl⟩) fun r r' hr ↦ { hr with
      influencedBy := rfl
      effectOn := rfl }) fun ν₁ hν₁ ↦ ?_
    refine Follows.next (follows_forM_same fun ν₂ c hν₂ ↦ follows_dropLost c) fun ν₂ hν₂ ↦ ?_
    refine (tracks_dropWon r.effectOn).bind fun ν₃ won won' hν₃ hwon ↦ ?_
    refine follows_forM_all hwon fun ν₄ i i' hν₄ hi ↦ ?_
    rw [hi.ports]
    exact follows_refreshFlows (hi.influenced.grow hν₄.node) .none

end Engine

end HeaderFlow
