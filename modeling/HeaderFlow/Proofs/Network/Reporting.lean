import HeaderFlow.Proofs.Network.Aftermath
import HeaderFlow.Proofs.Network.Catalogue
import HeaderFlow.Proofs.Network.Coverage
import HeaderFlow.Proofs.Network.TwinMutation

/-!
# What is reported about rules

A new rule is compared with the rules above it, and an audit compares every rule with those above
and with those below. **Both are exact, and they agree** (`Network.Arises.reports_exact`): what is
said is right in the sense of `Core.Tells`, which refers to sets of headers, and this determines it.

A change that adds a rule may be broken off. If that happens before the rule is there, nothing was
said about it. Otherwise the rules have not changed since it was compared with them
(`Engine.Related`), so what was said holds of the network that is left.

## Audits

An audit goes through the rules of a table with those before and those after, so a table is split at
each of its rules (`describes_of_split`), and the findings about one rule are told from those about
others by its identifier, of which a catalogued network has one for each rule (`nodup_ids`).
`Network.Audited` says that each finding is right and that there is one for each rule about which
there is something to be said.

## Additions

Where the addition of a rule stops is described by two cases (`stops_addRule`): the rule is unborn,
and nothing was said of it; or it was compared with the others, and after that nothing has happened
but tame steps. `addRule_cases` turns this into a statement about the outcome of the change, with a
refusal as the third case.
-/

namespace HeaderFlow

open Checked (Gives gives_ok)
open Engine

variable {α β : Type} {net : Network} {n : Core} {cores : List Core} {checks : AnomalyChecks}
  {table : TableId} {found first second : List Anomaly} {m : Node} {r : Rule} {p p' : Progress}

/-! ### Audits

An audit goes through the rules of a table with those before and behind at hand, so its anomalies
are those of a list that is split at each of its members. -/

/-- What an audit found about a rule is right. -/
structure Core.Judged (n : Core) (cores : List Core) (checks : AnomalyChecks) (table : TableId)
    (found : List Anomaly) : Prop where
  above : checks.shadow = true → checks.reach = true →
    n.Tells (n.above cores) (⟨.unreachable, table, n.id, ·⟩) (⟨.shadowed, table, n.id, ·⟩)
      (found.filter fun a ↦ a.kind ≠ .generalization)
  below : checks.generalization = true → n.CoveredBy (n.below cores) →
    ∃ ids, n.Enumerates (n.below cores) ids ∧
      (found.filter fun a ↦ a.kind = .generalization) = [⟨.generalization, table, n.id, ids⟩]
  alone : ¬ (checks.generalization = true ∧ n.CoveredBy (n.below cores)) →
    (found.filter fun a ↦ a.kind = .generalization) = []
  only : ∀ a ∈ found, a.table = table ∧ a.rule = n.id

/-- The findings about the rules above come before the finding about those below. -/
theorem Core.Judged.append
    (hfirst : ∀ a ∈ first, (a.table = table ∧ a.rule = n.id) ∧ a.kind ≠ .generalization)
    (hsecond : ∀ a ∈ second, (a.table = table ∧ a.rule = n.id) ∧ a.kind = .generalization)
    (habove : checks.shadow = true → checks.reach = true →
      n.Tells (n.above cores) (⟨.unreachable, table, n.id, ·⟩) (⟨.shadowed, table, n.id, ·⟩) first)
    (hbelow : checks.generalization = true → n.CoveredBy (n.below cores) →
      ∃ ids, n.Enumerates (n.below cores) ids ∧ second = [⟨.generalization, table, n.id, ids⟩])
    (halone : ¬ (checks.generalization = true ∧ n.CoveredBy (n.below cores)) → second = []) :
    n.Judged cores checks table (first ++ second) := by
  have hone : (first ++ second).filter (fun a ↦ a.kind ≠ .generalization) = first := by
    rw [List.filter_append, List.filter_eq_self.2 fun a ha ↦ decide_eq_true (hfirst a ha).2,
      List.filter_eq_nil_iff.2 fun a ha ↦ by simp [(hsecond a ha).2], List.append_nil]
  have htwo : (first ++ second).filter (fun a ↦ a.kind = .generalization) = second := by
    rw [List.filter_append, List.filter_eq_self.2 fun a ha ↦ decide_eq_true (hsecond a ha).2,
      List.filter_eq_nil_iff.2 fun a ha ↦ by simp [(hfirst a ha).2], List.nil_append]
  refine ⟨by rwa [hone], by rwa [htwo], by rwa [htwo], fun a ha ↦ ?_⟩
  rcases List.mem_append.1 ha with ha | ha
  · exact (hfirst a ha).1
  · exact (hsecond a ha).1

namespace Network

/-- **A rule is compared with those before and with those after it.** -/
theorem describes_of_split (hc : Core.Comparable net.layout.cores net.bytes)
    {before after : List Node} (hsplit : (net.rulesAt table).map Prod.snd = before ++ m :: after) :
    Gives (net.coverage m before) (·.Describes m.core (m.core.above net.layout.cores)) ∧
      Gives (net.coverage m after) (·.Describes m.core (m.core.below net.layout.cores)) := by
  have hmem : ∀ k, k ∈ before ++ m :: after → k ∈ net.nodes ∧ ∃ r, k.rule? = some r := by
    intro k hk
    obtain ⟨e, he, rfl⟩ := List.mem_map.1 (hsplit ▸ hk)
    obtain ⟨hnode, r, hr, -⟩ := mem_rulesAt.1 he
    exact ⟨hnode, r, hr⟩
  have hwidth : ∀ k ∈ before ++ m :: after, ∀ q, k.accepts = some q → q.bytes = net.bytes :=
    fun k hk ↦ hc.width k.core (List.mem_map_of_mem (hmem k hk).1)
  have hsorted : ((before ++ m :: after).map Node.core).Pairwise Core.Precedes := by
    rw [← hsplit, List.map_map]
    exact precedes_rulesAt hc table
  rw [List.map_append, List.map_cons, List.pairwise_append, List.pairwise_cons] at hsorted
  obtain ⟨hnode, r, hr⟩ := hmem m (List.mem_append_right _ List.mem_cons_self)
  have haccepts := accepts_of_rule? hc hnode hr
  obtain ⟨habove, hbelow⟩ := above_of_split hc hsplit
  rw [← habove, ← hbelow]
  exact ⟨describes_coverage haccepts (fun k hk ↦ hwidth k (List.mem_append_left _ hk)) hsorted.1,
    describes_coverage haccepts
      (fun k hk ↦ hwidth k (List.mem_append_right _ (List.mem_cons_of_mem _ hk))) hsorted.2.1.2⟩

/-- A comparison that is made only if it is asked for. -/
theorem gives_coverage_if {c : Bool} {ns : List Node} {k : Coverage → Checked β}
    {P : Coverage → Prop} {Q : β → Prop} (hP : Gives (net.coverage m ns) P)
    (hk : ∀ o, (c = true → P o) → (c = false → o = {}) → Gives (k o) Q) :
    Gives (if c = true then net.coverage m ns >>= k else pure {} >>= k) Q := by
  cases c with
  | true => exact hP.bind fun o ho ↦ hk o (fun _ ↦ ho) (by rintro ⟨⟩)
  | false => exact hk {} (by rintro ⟨⟩) fun _ ↦ rfl

/-- **The findings about one rule are right**: those about the rules above it and the one about
those below. -/
theorem judged_auditRule (hc : Core.Comparable net.layout.cores net.bytes)
    {before after : List Node} (hsplit : (net.rulesAt table).map Prod.snd = before ++ m :: after) :
    Gives (net.auditRule table before m after)
      (m.core.Judged net.layout.cores net.settings.anomalies table) := by
  obtain ⟨habove, hbelow⟩ := describes_of_split hc hsplit
  refine gives_coverage_if habove fun up hup _ ↦ gives_coverage_if hbelow fun down hdown hnone ↦
    gives_ok (.append (fun a ha ↦ ?_) (fun a ha ↦ ?_) (fun hshadow hreach ↦ ?_) (fun hgen hcov ↦ ?_)
      fun halone ↦ ?_)
  · split at ha
    · exact List.mem_singleton.1 ha ▸ ⟨⟨rfl, rfl⟩, by simp⟩
    · split at ha
      · exact List.mem_singleton.1 ha ▸ ⟨⟨rfl, rfl⟩, by simp⟩
      · exact absurd ha List.not_mem_nil
  · split at ha
    · exact List.mem_singleton.1 ha ▸ ⟨⟨rfl, rfl⟩, rfl⟩
    · exact absurd ha List.not_mem_nil
  · have htells := (hup (by simp [hshadow])).tells (α := Anomaly)
      (⟨.unreachable, table, m.core.id, ·⟩) (⟨.shadowed, table, m.core.id, ·⟩)
    convert htells using 1
    cases up.universal <;> simp [hshadow, hreach, Node.core]
  · have hcovers := (hdown hgen).covers.2 hcov
    exact ⟨down.related, (hdown hgen).related hcovers, if_pos hcovers⟩
  · refine if_neg fun hcovers ↦ ?_
    cases hgen : net.settings.anomalies.generalization with
    | true => exact halone ⟨hgen, (hdown hgen).covers.1 hcovers⟩
    | false => simp [hnone hgen] at hcovers

/-- Of two lists of findings, the first is about the rule. -/
theorem filter_about {here more : List Anomaly} {id : NodeId} (hhere : ∀ a ∈ here, a.rule = id)
    (hmore : ∀ a ∈ more, a.rule ≠ id) : (here ++ more).filter (fun a ↦ a.rule = id) = here := by
  rw [List.filter_append, List.filter_eq_self.2 fun a ha ↦ decide_eq_true (hhere a ha),
    List.filter_eq_nil_iff.2 fun a ha ↦ by simpa using hmore a ha, List.append_nil]

/-- Of two lists of findings, the second may be about the rule. -/
theorem filter_not_about {here more : List Anomaly} {id : NodeId}
    (hhere : ∀ a ∈ here, a.rule ≠ id) :
    (here ++ more).filter (fun a ↦ a.rule = id) = more.filter fun a ↦ a.rule = id := by
  rw [List.filter_append, List.filter_eq_nil_iff.2 fun a ha ↦ by simpa using hhere a ha,
    List.nil_append]

/-- The rules of a table have different identifiers. -/
theorem nodup_ids (hcat : Catalogued net) (hc : Core.Comparable net.layout.cores net.bytes)
    (table : TableId) : (((net.rulesAt table).map Prod.snd).map Node.id).Nodup := by
  have hids : ((net.rulesAt table).map fun e ↦ e.2.core).Pairwise fun a b ↦ a.id ≠ b.id := by
    refine (precedes_rulesAt hc table).imp_of_mem fun {a b} ha hb hprec hid ↦ ?_
    have ha := (mem_map_rulesAt.1 ha).1
    have hb := (mem_map_rulesAt.1 hb).1
    obtain ⟨t, i, j, w, w', hak, hbk, hlt⟩ := hprec
    rw [hcat.called a ha _ _ _ hak, hcat.called b hb _ _ _ hbk] at hid
    exact absurd hlt ((ruleId_injective hid).2 ▸ UInt32.lt_irrefl _)
  have hids := List.pairwise_map.1 hids
  rw [List.map_map]
  exact List.pairwise_map.2 hids

/-- **The findings about the rest of a table are right**, by induction along the rules. -/
theorem judged_auditRules (hcat : Catalogued net) (hc : Core.Comparable net.layout.cores net.bytes)
    {before ns : List Node} (hsplit : (net.rulesAt table).map Prod.snd = before ++ ns) :
    Gives (net.auditRules table before ns) fun found ↦
      (∀ m ∈ ns, m.core.Judged net.layout.cores net.settings.anomalies table
        (found.filter fun a ↦ a.rule = m.id)) ∧
      ∀ a ∈ found, a.table = table ∧ ∃ m ∈ ns, a.rule = m.id := by
  induction ns generalizing before with
  | nil => exact gives_ok ⟨by simp, by simp⟩
  | cons m ns ih =>
    have hids : ((m :: ns).map Node.id).Nodup := by
      have hall := nodup_ids hcat hc table
      rw [hsplit, List.map_append] at hall
      exact (List.nodup_append.1 hall).2.1
    have hother : ∀ k ∈ ns, k.id ≠ m.id := fun k hk he ↦
      (List.nodup_cons.1 hids).1 (he ▸ List.mem_map_of_mem hk)
    have hrest : (net.rulesAt table).map Prod.snd = (before ++ [m]) ++ ns := by simpa using hsplit
    refine (judged_auditRule hc hsplit).bind fun here hhere ↦
      (ih hrest).bind fun more hmore ↦ gives_ok ?_
    obtain ⟨hjudged, honly⟩ := hmore
    refine ⟨List.forall_mem_cons.2 ⟨?_, fun k hk ↦ ?_⟩, fun a ha ↦ ?_⟩
    · rw [filter_about (fun a ha ↦ show a.rule = m.id from (hhere.only a ha).2) fun a ha he ↦ ?_]
      · exact hhere
      · obtain ⟨-, k, hk, hid⟩ := honly a ha
        exact hother k hk (hid.symm.trans he)
    · rw [filter_not_about fun a ha he ↦ hother k hk (he.symm.trans (hhere.only a ha).2)]
      exact hjudged k hk
    · rcases List.mem_append.1 ha with ha | ha
      · exact ⟨(hhere.only a ha).1, m, List.mem_cons_self, (hhere.only a ha).2⟩
      · obtain ⟨htable, k, hk, hid⟩ := honly a ha
        exact ⟨htable, k, List.mem_cons_of_mem _ hk, hid⟩

/-- What an audit of some tables found is right, and every finding is about a rule of one of
them. -/
structure Audited (net : Network) (tables : List TableId) (found : List Anomaly) : Prop where
  judged : ∀ t ∈ tables, ∀ n ∈ net.layout.cores, ∀ place w, n.kind = .rule t place w →
    n.Judged net.layout.cores net.settings.anomalies t (found.filter fun a ↦ a.rule = n.id)
  only : ∀ a ∈ found, a.table ∈ tables ∧
    ∃ n ∈ net.layout.cores, ∃ place w, n.kind = .rule a.table place w ∧ a.rule = n.id

/-- The findings about several tables, each of which is looked at once. -/
theorem audited_auditTables (hL : net.layout.WellFormed) (hcat : Catalogued net)
    (hc : Core.Comparable net.layout.cores net.bytes) {ts : List TableId} (hts : ts.Nodup) :
    Gives (net.auditTables ts) (net.Audited ts) := by
  induction ts with
  | nil => exact gives_ok ⟨by simp, by simp⟩
  | cons t ts ih =>
    obtain ⟨hnot, hts⟩ := List.nodup_cons.1 hts
    rw [auditTables, rulesOf_eq hL]
    refine (judged_auditRules hcat hc (List.nil_append _).symm).bind fun here hhere ↦
      (ih hts).bind fun more hmore ↦ gives_ok ?_
    obtain ⟨hjudged, honly⟩ := hhere
    have hrule : ∀ {a}, a ∈ here → ∃ n ∈ net.layout.cores, ∃ place w, n.kind = .rule t place w ∧
        a.rule = n.id := by
      intro a ha
      obtain ⟨-, k, hk, hid⟩ := honly a ha
      obtain ⟨e, he, rfl⟩ := List.mem_map.1 hk
      obtain ⟨hmem, place, w, hkind⟩ :=
        mem_map_rulesAt.1 (List.mem_map_of_mem (f := fun e ↦ e.2.core) he)
      exact ⟨e.2.core, hmem, place, w, hkind, hid⟩
    -- rules of different tables have different identifiers
    have hapart : ∀ {n k : Core} {t' t'' i j w w'}, n ∈ net.layout.cores → k ∈ net.layout.cores →
        n.kind = .rule t' i w → k.kind = .rule t'' j w' → t' ≠ t'' → n.id ≠ k.id := by
      intro n k t' t'' i j w w' hn hk hnk hkk hne hid
      rw [hcat.called n hn _ _ _ hnk, hcat.called k hk _ _ _ hkk] at hid
      exact hne (ruleId_injective hid).1
    refine ⟨List.forall_mem_cons.2
      ⟨fun n hn place w hkind ↦ ?_, fun t' ht' n hn place w hkind ↦ ?_⟩, fun a ha ↦ ?_⟩
    · obtain ⟨e, he, rfl⟩ := List.mem_map.1 (mem_map_rulesAt.2 ⟨hn, place, w, hkind⟩)
      have hmore : more.filter (fun a ↦ a.rule = e.2.core.id) = [] := by
        refine List.filter_eq_nil_iff.2 fun a ha ↦ ?_
        obtain ⟨hta, k, hk, i, w', hkk, hid⟩ := hmore.only a ha
        have hne : t ≠ a.table := by
          rintro rfl
          exact hnot hta
        simpa [hid] using (hapart hn hk hkind hkk hne).symm
      rw [List.filter_append, hmore, List.append_nil]
      exact hjudged e.2 (List.mem_map_of_mem he)
    · rw [filter_not_about fun a ha he ↦ ?_]
      · exact hmore.judged t' ht' n hn place w hkind
      · obtain ⟨k, hk, i, w', hkk, hid⟩ := hrule ha
        have hne : t ≠ t' := by
          rintro rfl
          exact hnot ht'
        exact hapart hk hn hkk hkind hne (hid.symm.trans he)
    · rcases List.mem_append.1 ha with ha | ha
      · have htable := (honly a ha).1
        exact ⟨htable ▸ List.mem_cons_self, htable ▸ hrule ha⟩
      · obtain ⟨htable, hn⟩ := hmore.only a ha
        exact ⟨List.mem_cons_of_mem _ htable, hn⟩

/-- The tables that an audit looks at. -/
def audited (net : Network) : Option TableId → List TableId
  | none => net.tableIds
  | some t => if t = 0 then net.tableIds else [t]

/-- An audit looks at all tables or at one that is there. -/
def CanAudit (net : Network) (table : Option TableId) : Prop :=
  ∀ t, table = some t → t = 0 ∨ (net.table? t).isSome = true

/-- **An audit finds what there is**, and changes nothing. -/
theorem Arises.audit_exact (ha : Arises net) {table : Option TableId}
    (htable : net.CanAudit table) :
    ∃ found, net.audit table = ⟨.ok found, net, found.map .anomaly⟩ ∧
      net.Audited (net.audited table) found := by
  have hnodup : (net.audited table).Nodup := by
    cases table with
    | none => exact ha.catalogued.tables
    | some t =>
      rw [audited]
      split
      · exact ha.catalogued.tables
      · exact List.nodup_singleton _
  obtain ⟨found, hfound, haudited⟩ :=
    audited_auditTables ha.stands.wellFormed ha.catalogued ha.stands.comparable hnodup
  refine ⟨found, ?_, haudited⟩
  cases table with
  | none =>
    simp only [audited, tableIds] at hfound
    simp only [audit, hfound]
  | some t =>
    by_cases ht : t = 0
    · simp only [audited, ht, if_true, tableIds] at hfound
      simp only [audit, ht, if_true, hfound]
    · have hsome := (htable t rfl).resolve_left ht
      simp only [audited, ht, if_false] at hfound
      simp only [audit, ht, if_false, hsome, if_true, hfound]

end Network

/-! ### A new rule

Adding a rule reports its coverage before anything flows. The change may be broken off later on, and
then the report has been made; it may be refused before, and then nothing is reported. -/

namespace Engine

/-- The rule was compared with the others, which was reported. The nodes are still the same. -/
def Related (m : Node) (r : Rule) (p : Progress) : Prop :=
  ∃ mid rules c, m ∈ mid.nodes ∧ mid.layout.cores = p.network.layout.cores ∧
    mid.registry = p.network.registry ∧ frame mid = frame p.network ∧
    mid.rulesOf r.table = .ok rules ∧
    coverageAbove m r.index (rules.filter fun e ↦ e.2.key ≠ m.key) mid = .ok c ∧
    p.reports.filter Report.isCoverage = coverageReports c m.id p.network.lastEvent

/-- The rule is not there yet, and nothing was said about it. -/
structure Unborn (key : NodeKey) (p : Progress) : Prop where
  absent : ∀ n ∈ p.network.layout.cores, n.key ≠ key
  silent : p.reports.filter Report.isCoverage = []

/-- What was said is right as long as the nodes are the same. -/
theorem Related.mild (h : Related m r p) (hm : Mild p p') : Related m r p' := by
  obtain ⟨mid, rules, c, hmem, hcores, hregistry, hframe, hrules, hc, hsaid⟩ := h
  have hevent : p'.network.lastEvent = p.network.lastEvent := congrArg (fun o ↦ o.2.2.2) hm.outline
  have hregistry' : p'.network.registry = p.network.registry := congrArg (fun o ↦ o.2.1) hm.outline
  refine ⟨mid, rules, c, hmem, hcores.trans hm.cores.symm, hregistry.trans hregistry'.symm,
    hframe.trans hm.frame.symm, hrules, hc, ?_⟩
  rw [hm.reports, hsaid, hevent]

/-- What is reported about a new rule is all about coverage, and is one report at most. -/
theorem filter_coverageReports (c : Coverage) (id : NodeId) (e : Option Event) :
    (coverageReports c id e).filter Report.isCoverage = coverageReports c id e := by
  rw [coverageReports]
  split
  · rfl
  · split <;> rfl

/-- One report is the same in either direction. -/
theorem reverse_coverageReports (c : Coverage) (id : NodeId) (e : Option Event) :
    (coverageReports c id e).reverse = coverageReports c id e := by
  rw [coverageReports]
  split
  · rfl
  · split <;> rfl

/-- A tame computation does not undo this. -/
theorem Related.tame_bind {x : Engine α} {k : α → Engine β} {B : Halt → Progress → Prop}
    {Q : β → Progress → Prop} (h : Related m r p) (hx : Tame true x)
    (hp : (p.network.layout.cores.map Core.key).Nodup) (hB : ∀ e p', Related m r p' → B e p')
    (hk : ∀ a p', Related m r p' → (p'.network.layout.cores.map Core.key).Nodup →
      Stops (k a) p' B Q) :
    Stops (x >>= k) p B Q :=
  ((hx.stops hp).mono (fun e p' hm ↦ hB e p' (h.mild hm)) fun _ _ hm ↦ hm).bind fun a p' hm ↦
    hk a p' (h.mild hm) (hm.nodup hp)

/-- **A rule that was added is compared with the others**, unless there is a fault. -/
theorem stops_relate_new (hp : (p.network.layout.cores.map Core.key).Nodup)
    (hsilent : p.reports.filter Report.isCoverage = []) (hm : m ∈ p.network.nodes)
    (hr : m.rule? = some r) (haccepts : ∃ q, m.accepts = some q) :
    Stops (relate m.key) p (fun e _ ↦ ∃ f, e = .fault f) fun _ p' ↦ Related m r p' ∧
      (p'.network.layout.cores.map Core.key).Nodup := by
  refine ((steady_relate m.key).stops (stops_relate hp)).mono (fun _ _ h ↦ h.2) fun _ p' h ↦ ?_
  obtain ⟨p₁, said, hmild, rfl, hsaid⟩ := h
  obtain ⟨q, hq⟩ := haccepts
  obtain ⟨rules, c, hrules, hc, rfl⟩ :=
    hsaid m r q (Network.nodeAt?_of_mem (map_key_cores p.network ▸ hp) hm) hr hq
  have hevent : p₁.network.lastEvent = p.network.lastEvent :=
    congrArg (fun o ↦ o.2.2.2) hmild.outline
  have hregistry : p₁.network.registry = p.network.registry :=
    congrArg (fun o ↦ o.2.1) hmild.outline
  refine ⟨⟨p.network, rules, c, hm, hmild.cores.symm, hregistry.symm, hmild.frame.symm,
    hrules, hc, ?_⟩, hmild.nodup hp⟩
  rw [List.filter_append, hmild.reports, hsilent, filter_coverageReports, List.append_nil, hevent]

/-- Adding a node cannot halt. -/
theorem stops_addNode_bind {node : NodeKey → Node} {k : NodeKey → Engine β}
    {B : Halt → Progress → Prop} {Q : β → Progress → Prop} : Stops (addNode node >>= k) p B Q ↔
      Stops (k p.network.nextKey) { p with network := p.network.enrol (node p.network.nextKey) } B
        Q := Iff.rfl

/-- **Wherever the addition of a rule stops**, either the rule is not there and nothing was said, or
it was compared with the others and nothing has happened to the nodes since. -/
theorem stops_addRule {node : NodeKey → Node} {id : NodeId} (olds : List NodeKey)
    (hc : Network.Catalogued p.network) (hsilent : p.reports.filter Report.isCoverage = [])
    (hkey : ∀ key, (node key).key = key) (hrule : ∀ key, (node key).rule? = some r)
    (hcalled : ∀ key, (node key).id = ruleId r.table r.index)
    (haccepts : ∀ key, ∃ q, (node key).accepts = some q) :
    Stops (do
        olds.forM removeRuleNode
        let key ← addNode node
        relate key
        connect key
        takeWon key
        pull key
        return id) p
      (fun e p' ↦ (∃ f, e = .fault f) ∨ Unborn p.network.nextKey p' ∨
        Related (node p.network.nextKey) r p')
      fun id' p' ↦ id' = id ∧ Related (node p.network.nextKey) r p' := by
  have hunborn : ∀ {p'}, Thins p p' → Unborn p.network.nextKey p' := fun h ↦
    ⟨fun n hn ↦ Nat.ne_of_lt (hc.fresh n (h.cores.subset hn)), h.reports.trans hsilent⟩
  refine Stops.bind ((stops_removeRuleNodes hc.nodup olds).mono
    (fun _ _ h ↦ .inr (.inl (hunborn h))) fun _ _ h ↦ h) fun _ p₁ hthins ↦ ?_
  have hnext : p₁.network.nextKey = p.network.nextKey := hthins.nextKey
  -- the node is there from now on
  have hc' := (hthins.catalogued hc).append (hkey _) fun table index w hkind ↦ by
    obtain ⟨rfl, rfl, -⟩ := Kind.rule.inj ((Network.kind_of_rule? (hrule _)).symm.trans hkind)
    exact hcalled _
  have hrelate := stops_relate_new
    (p := { p₁ with network := p₁.network.enrol (node p₁.network.nextKey) })
    hc'.nodup (hthins.reports.trans hsilent)
    (List.mem_append_right _ (List.mem_singleton_self _)) (hrule _) (haccepts _)
  rw [hkey] at hrelate
  rw [← hnext, stops_addNode_bind]
  refine Stops.bind (hrelate.mono (fun _ _ h ↦ .inl h) fun _ _ h ↦ h) fun _ p₂ h₂ ↦ ?_
  have hB : ∀ e p', Related (node p₁.network.nextKey) r p' → (∃ f, e = Halt.fault f) ∨
      Unborn p₁.network.nextKey p' ∨ Related (node p₁.network.nextKey) r p' := fun _ _ h ↦
        .inr (.inr h)
  refine h₂.1.tame_bind (tame_connect _) h₂.2 hB fun _ p₃ h₃ hp₃ ↦
    h₃.tame_bind (tame_takeWon _) hp₃ hB fun _ p₄ h₄ hp₄ ↦
    h₄.tame_bind (tame_pull _) hp₄ hB fun _ p₅ h₅ _ ↦ ?_
  exact ⟨rfl, h₅⟩

end Engine

/-! ### Exactness

Both reports are compared with one description of anomalies, which is about the rules of a table as
they are ranked and nothing else. -/

/-- What was said while a rule was added to `net` is right, whatever came of the change: if the rule
is there, under the next key, it is what was described, and what was said about it is right;
otherwise nothing was said. -/
structure Outcome.Announces (o : Outcome NodeId) (net : Network) (spec : RuleSpec) : Prop where
  told : ∀ n ∈ o.network.layout.cores, n.key = net.nextKey →
    (∃ t w, net.RuleFits spec t w ∧ n = (Network.nodeOf spec t w net.nextKey).core) ∧
    n.Tells (n.above o.network.layout.cores) (fun _ ↦ Report.unreachable n.id o.network.lastEvent)
      (fun ids ↦ .shadow n.id ids o.network.lastEvent) (o.reports.filter Report.isCoverage)
  silent : (∀ n ∈ o.network.layout.cores, n.key ≠ net.nextKey) →
    o.reports.filter Report.isCoverage = []
  added : ∀ id, o.result = .ok id → ∃ n ∈ o.network.layout.cores, n.key = net.nextKey ∧ n.id = id
  /-- A description that fits is not refused. -/
  failed : ∀ e, o.result = .error e → net.ruleNode spec = .error e ∨
    ∃ overrun, e = .tooComplex overrun

/-- A finding about a rule, as it is reported when the rule is added. -/
def Anomaly.report (event : Option Event) (a : Anomaly) : Report :=
  match a.kind with
  | .unreachable => .unreachable a.rule event
  | _ => .shadow a.rule a.related event

/-- **What is right is determined**: two ways of saying it say the same. -/
theorem Core.Tells.agree {S : Set Core} {u s : List NodeId → α} {u' s' : List NodeId → β}
    {said : List α} {said' : List β} (h : n.Tells S u s said) (h' : n.Tells S u' s' said')
    (f : α → β) (hu : ∀ ids, f (u ids) = u' ids) (hs : ∀ ids, f (s ids) = s' ids) :
    said' = said.map f := by
  by_cases hS : Core.united S = Set.univ
  · obtain ⟨ids, hids, rfl⟩ := h.unreachable hS
    obtain ⟨ids', hids', rfl⟩ := h'.unreachable hS
    rw [hids'.unique hids, List.map_singleton, hu]
  · by_cases hcov : n.CoveredBy S
    · obtain ⟨ids, hids, rfl⟩ := h.shadowed hS hcov
      obtain ⟨ids', hids', rfl⟩ := h'.shadowed hS hcov
      rw [hids'.unique hids, List.map_singleton, hs]
    · rw [h.silent hS hcov, h'.silent hS hcov, List.map_nil]

namespace Network

variable {spec : RuleSpec} {o : Outcome NodeId} {t : Table} {w : Option Overwrite}

/-- The change stopped at `p`, and left what there was. -/
structure LeftBy (o : Outcome NodeId) (p : Progress) : Prop where
  cores : o.network.layout.cores = p.network.layout.cores
  bytes : o.network.bytes = p.network.bytes
  settings : o.network.settings = p.network.settings
  registry : o.network.registry = p.network.registry
  lastEvent : o.network.lastEvent = p.network.lastEvent
  reports : o.reports = p.reports.reverse

/-- A change that has no fault is carried out, or broken off. -/
theorem exists_leftBy {e : Event} {x : Engine NodeId} {B : Halt → Progress → Prop}
    {Q : NodeId → Progress → Prop}
    (hx : Stops x ⟨{ net with budget := net.budget.reset, lastEvent := some e }, []⟩ B Q)
    (hfaultless : Faultless (net.carryOut do setEvent e; x).result) :
    ∃ p, LeftBy (net.carryOut do setEvent e; x) p ∧
      ((∃ id, (net.carryOut do setEvent e; x).result = .ok id ∧ Q id p) ∨
        ∃ overrun, (net.carryOut do setEvent e; x).result = .error (.tooComplex overrun) ∧
          B (.overrun overrun) p) := by
  replace hx := (stops_setEvent_bind (p := ⟨{ net with budget := net.budget.reset }, []⟩)
    (k := fun _ ↦ x)).2 hx
  generalize (do setEvent e; x) = change at hx hfaultless ⊢
  rw [carryOut] at hfaultless ⊢
  simp only [Stops, EStateM.run] at hx hfaultless ⊢
  cases hrun : change ⟨{ net with budget := net.budget.reset }, []⟩ with
  | ok id p =>
    rw [hrun] at hx
    exact ⟨p, ⟨rfl, rfl, rfl, rfl, rfl, rfl⟩, .inl ⟨id, rfl, hx⟩⟩
  | error e p =>
    rw [hrun] at hx hfaultless
    cases e with
    | fault f => exact absurd rfl (hfaultless f)
    | overrun overrun => exact ⟨p, ⟨rfl, rfl, rfl, rfl, rfl, rfl⟩, .inr ⟨overrun, rfl, hx⟩⟩

/-- The addition of a rule came to its end, or was broken off. -/
def Added (spec : RuleSpec) (result : Except NetworkError NodeId) : Prop :=
  result = .ok (ruleId spec.table spec.index) ∨ ∃ overrun, result = .error (.tooComplex overrun)

/-- **How the addition of a rule ends**: it is refused, or broken off before the rule is there, or
else the rule was compared with the others, and the nodes are still the same. -/
theorem addRule_cases (ha : Arises net) (spec : RuleSpec) :
    (∃ e, net.ruleNode spec = .error e ∧ net.addRule spec = .refused net e) ∨
    ∃ t w p, net.RuleFits spec t w ∧ LeftBy (net.addRule spec) p ∧
      ((∃ overrun, (net.addRule spec).result = .error (.tooComplex overrun)) ∧
        Unborn net.nextKey p ∨ Added spec (net.addRule spec).result ∧
          Related (nodeOf spec t w net.nextKey) ⟨spec.table, spec.index, w, [], []⟩ p) := by
  have hcat := ha.catalogued
  have hno : Faultless (net.addRule spec).result := fun f hf ↦
    (apply_stands ha.stands (m := .addRule spec) trivial trivial).2 f
      (by rw [apply, Outcome.map, hf]; rfl)
  revert hno
  rw [addRule]
  split
  · rename_i e he
    exact fun _ ↦ .inl ⟨e, he, rfl⟩
  · rename_i node hnode
    obtain ⟨t, w, hfits, rfl⟩ := of_ruleNode hnode
    intro hno
    obtain ⟨p, hleft, hp⟩ := exists_leftBy
      (stops_addRule _ (hcat.congr rfl rfl rfl) rfl (fun _ ↦ rfl)
      (fun _ ↦ rfl) (fun _ ↦ rfl) fun _ ↦ ⟨_, rfl⟩) hno
    refine .inr ⟨t, w, p, hfits, hleft, ?_⟩
    rcases hp with ⟨_, hok, rfl, hrelated⟩ | ⟨overrun, herror, ⟨f, hf⟩ | hunborn | hrelated⟩
    · exact .inr ⟨.inl hok, hrelated⟩
    · cases hf
    · exact .inl ⟨⟨overrun, herror⟩, hunborn⟩
    · exact .inr ⟨.inr ⟨overrun, herror⟩, hrelated⟩

/-- Nothing was said about a rule that is not there. -/
theorem announces_of_unborn {overrun : Overrun} (hp : Unborn net.nextKey p) (hleft : LeftBy o p)
    (hresult : o.result = .error (.tooComplex overrun)) : o.Announces net spec where
  told n hn hkey := absurd hkey (hp.absent n (hleft.cores ▸ hn))
  silent _ := by rw [hleft.reports, List.filter_reverse, hp.silent, List.reverse_nil]
  added id hid := by cases hresult.symm.trans hid
  failed e he := .inr ⟨overrun, Except.error.inj (he.symm.trans hresult)⟩

/-- What was said when the rule was compared, in terms of what is left. -/
theorem coverage_of_related (ha : Arises o.network) (hleft : LeftBy o p) (hp : Related m r p)
    (hr : m.rule? = some r) : m.core ∈ o.network.layout.cores ∧
      ∃ c, o.reports.filter Report.isCoverage = coverageReports c m.id o.network.lastEvent ∧
        (o.network.settings.checkShadow = false → c = {}) ∧
        (o.network.settings.checkShadow = true →
          c.Describes m.core (m.core.above o.network.layout.cores)) := by
  obtain ⟨mid, rules, c, hmem, hmid, hmidRegistry, hmidFrame, hrules, hc, hsaid⟩ := hp
  simp only [frame, Prod.mk.injEq] at hmidFrame
  have hsame : mid.layout.cores = o.network.layout.cores := hmid.trans hleft.cores.symm
  have hsettings : mid.settings = o.network.settings := hmidFrame.2.1.trans hleft.settings.symm
  -- the rules were found, since nodes are found now, and nothing about that has changed
  have hL := ha.stands.wellFormed
  have hregistry : mid.registry = o.network.registry := hmidRegistry.trans hleft.registry.symm
  have hnodup : (mid.layout.cores.map Core.key).Nodup := hsame ▸ hL.nodup
  have hagrees : mid.registry.Agrees mid.layout.cores := hsame ▸ hregistry ▸ hL.found
  have hfound := rulesOf_of_agrees hnodup hagrees r.table
  obtain rfl := Except.ok.inj (hfound.symm.trans hrules)
  refine ⟨hsame ▸ List.mem_map_of_mem hmem, c, ?_, fun hcheck ↦ ?_, fun hcheck ↦ ?_⟩
  · rw [hleft.reports, List.filter_reverse, hsaid, hleft.lastEvent]
    exact reverse_coverageReports _ _ _
  · rw [coverageAbove, if_neg (by simp [hsettings, hcheck])] at hc
    exact (Except.ok.inj hc).symm
  · have hcomparable : Core.Comparable mid.layout.cores mid.bytes := by
      rw [hsame, hmidFrame.1, ← hleft.bytes]
      exact ha.stands.comparable
    obtain ⟨c', hc', hdescribes⟩ := describes_coverageAbove hcomparable (hsettings ▸ hcheck) hmem hr
    obtain rfl := Except.ok.inj (hc.symm.trans hc')
    exact hsame ▸ hdescribes

/-- **What was said when the rule was compared is right at the end**, because the nodes are the
same. -/
theorem announces_of_related (hfits : net.RuleFits spec t w) (ha : Arises o.network)
    (hcheck : o.network.settings.checkShadow = true) (hleft : LeftBy o p)
    (hp : Related (nodeOf spec t w net.nextKey) ⟨spec.table, spec.index, w, [], []⟩ p)
    (hresult : Added spec o.result) : o.Announces net spec := by
  obtain ⟨hthere, c, hfilter, -, hdescribes⟩ := coverage_of_related ha hleft hp rfl
  refine ⟨fun n hn hkey ↦ ?_, fun hnone ↦ absurd rfl (hnone _ hthere), fun id hid ↦ ?_,
    fun e he ↦ ?_⟩
  · obtain rfl := List.inj_on_of_nodup_map ha.catalogued.nodup hn hthere hkey
    refine ⟨⟨t, w, hfits, rfl⟩, ?_⟩
    rw [hfilter]
    exact (hdescribes hcheck).tells _ _
  · rcases hresult with hok | ⟨overrun, herror⟩
    · exact ⟨_, hthere, rfl, Except.ok.inj (hok.symm.trans hid)⟩
    · cases herror.symm.trans hid
  · rcases hresult with hok | ⟨overrun, herror⟩
    · cases hok.symm.trans he
    · exact .inr ⟨overrun, Except.error.inj (he.symm.trans herror)⟩

/-- **What is said when a rule is added is right**, also if the addition is broken off. -/
theorem announces_addRule (ha : Arises net) (hcheck : net.settings.checkShadow = true)
    (spec : RuleSpec) : (net.addRule spec).Announces net spec := by
  have hm : net.Coherent (.addRule spec) := trivial
  have ha' : Arises (net.addRule spec).network := ha.apply _ hm
  have hsettings : (net.addRule spec).network.settings = net.settings :=
    (settles_apply ha.attained.orderly _ (apply_stands ha.stands hm trivial).2).1.settings
  rcases addRule_cases ha spec with ⟨e, he, hrefused⟩ | ⟨t, w, p, hfits, hleft, hp⟩
  · rw [hrefused]
    refine ⟨fun n hn hkey ↦ absurd (ha.catalogued.fresh n hn) (hkey ▸ Nat.lt_irrefl _), fun _ ↦ rfl,
      by rintro _ ⟨⟩, fun e' he' ↦ .inl ?_⟩
    exact he.trans (congrArg _ (Except.error.inj he'))
  · rcases hp with ⟨⟨overrun, herror⟩, hunborn⟩ | ⟨hresult, hrelated⟩
    · exact announces_of_unborn hunborn hleft herror
    · exact announces_of_related hfits ha' (hsettings ▸ hcheck) hleft hrelated hresult

/-- **Insertions and audits are exact, and they agree.** In every network that can arise:

* what is said while a rule is added is right about the network that is left, if the settings ask
  for it;
* an audit says what is right about every rule of the tables that it looks at, and nothing else;
* an audit after the addition says of the new rule what was said when it was added. -/
theorem Arises.reports_exact (ha : Arises net) :
    (net.settings.checkShadow = true → ∀ spec, (net.addRule spec).Announces net spec) ∧
    (∀ table, net.CanAudit table → ∃ found, net.audit table = ⟨.ok found, net, found.map .anomaly⟩ ∧
      net.Audited (net.audited table) found) ∧
    ∀ spec table, net.settings.checkShadow = true → net.settings.anomalies.shadow = true →
      net.settings.anomalies.reach = true → ∀ n ∈ (net.addRule spec).network.layout.cores,
      n.key = net.nextKey → (net.addRule spec).network.CanAudit table →
      spec.table ∈ (net.addRule spec).network.audited table →
      ∃ found, ((net.addRule spec).network.audit table).result = .ok found ∧
        (net.addRule spec).reports.filter Report.isCoverage =
          (found.filter fun a ↦ a.rule = n.id ∧ a.kind ≠ .generalization).map
            (Anomaly.report (net.addRule spec).network.lastEvent) := by
  refine ⟨fun hcheck spec ↦ announces_addRule ha hcheck spec,
    fun table htable ↦ ha.audit_exact htable,
    fun spec table hcheck hshadow hreach n hn hkey htable hmem ↦ ?_⟩
  have hm : net.Coherent (.addRule spec) := trivial
  have ha' : Arises (net.addRule spec).network := ha.apply _ hm
  have hsettings : (net.addRule spec).network.settings = net.settings :=
    (settles_apply ha.attained.orderly _ (apply_stands ha.stands hm trivial).2).1.settings
  obtain ⟨⟨t, w, -, rfl⟩, htells⟩ := (announces_addRule ha hcheck spec).told n hn hkey
  obtain ⟨found, hfound, haudited⟩ := ha'.audit_exact htable
  have hjudged := (haudited.judged _ hmem _ hn _ w rfl).above (hsettings ▸ hshadow)
    (hsettings ▸ hreach)
  refine ⟨found, by rw [hfound], ?_⟩
  rw [hjudged.agree htells (Anomaly.report _) (fun _ ↦ rfl) fun _ ↦ rfl, List.filter_filter]
  simp only [Bool.decide_and, Bool.and_comm]

/-- The headers that start with two given bits, or with one. -/
def startingWith (a b : Trit) : Pattern :=
  .ofTrits [a, b, .wild, .wild, .wild, .wild, .wild, .wild]

/-- Two rules for port 11, the second of which is added first, and one for all headers at port
12. -/
def layered : Network :=
  [.addTable 1 [11, 12],
    .addRule { table := 1, index := 2, inPorts := [11], outPorts := [12],
               accepts := startingWith .zero .one },
    .addRule { table := 1, index := 1, inPorts := [11], outPorts := [12],
               accepts := startingWith .zero .zero },
    .addRule { table := 1, index := 3, inPorts := [12], outPorts := [11],
               accepts := .allWild 1 }].foldl
      (fun net m ↦ (net.apply m).network) (.new 1 Settings.default)

/-- The first two rules cover this one, though neither does alone. -/
def overshadowed : RuleSpec :=
  { table := 1, index := 4, inPorts := [11], outPorts := [12], accepts := startingWith .zero .wild }

/-- The rule is found to be shadowed by the first two, by the addition as well as by the audit. -/
theorem reports_exact_layered : (layered.addRule overshadowed).Announces layered overshadowed ∧
    (∃ found, layered.audit none = ⟨.ok found, layered, found.map .anomaly⟩ ∧
      layered.Audited (layered.audited none) found) ∧
    (layered.addRule overshadowed).reports = [.shadow (ruleId 1 4) [ruleId 1 1, ruleId 1 2]
      (layered.addRule overshadowed).network.lastEvent] ∧
    ∃ n ∈ (layered.addRule overshadowed).network.layout.cores, n.id = ruleId 1 4 ∧
      ∃ found, ((layered.addRule overshadowed).network.audit none).result = .ok found ∧
        (layered.addRule overshadowed).reports.filter Report.isCoverage =
          (found.filter fun a ↦ a.rule = n.id ∧ a.kind ≠ .generalization).map
            (Anomaly.report (layered.addRule overshadowed).network.lastEvent) := by
  have harises : Arises layered := .apply _ (.apply _ (.apply _ (.apply _ (.new _ _) trivial)
    trivial) trivial) trivial
  obtain ⟨hadd, haudit, hagree⟩ := harises.reports_exact
  have hcheck : layered.settings.checkShadow = true := by decide +kernel
  have hadded := hadd hcheck overshadowed
  obtain ⟨n, hn, hkey, hid⟩ := hadded.added (ruleId 1 4) (by decide +kernel)
  refine ⟨hadded, haudit none (by rintro _ ⟨⟩), by decide +kernel, n, hn, hid, ?_⟩
  exact hagree overshadowed none hcheck (by decide +kernel) (by decide +kernel) n hn hkey
    (by rintro _ ⟨⟩) (by decide +kernel)

end Network

end HeaderFlow
