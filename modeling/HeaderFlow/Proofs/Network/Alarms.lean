import HeaderFlow.Proofs.Network.Reporting
import HeaderFlow.Proofs.Network.Route

/-!
# What a report about a rule means for headers

A rule is reported if the rules of higher priority that share a port with it have all its headers.
That is said of the rules **together, whatever the ports are by which each of them takes headers
in**. Priority acts at a port: a header is taken from a rule by one that matches it and has the port
by which it came (`Network.Outranked`). The two agree if each of those rules has all ports of the
one that is reported, and so in particular if it has a single port: **then no header passes it,
whatever the links and the sources are** (`Network.Overlaid.blocked`). Otherwise a header may be
taken at one port and pass by another, and a rule can be reported that is in use
(`Network.reported_in_use`).

## What is known of a reported rule

`Network.Idle` collects it: each header that the rule accepts is taken from it at one of its ports
at least (`Network.Overlaid`), and if the rules above are `Network.Enclosed` then it is taken at
every port, so that the rule is `Network.Blocked`. There are two places that report, and both come
down to `Core.CoveredBy`: the audit, which goes through the tables rule by rule
(`idle_of_auditTables`), and the addition of a rule (`idle_of_addRule`), where the report counts
even if the addition is broken off later.

## The converse fails

`Network.reported_in_use` is a network in which a rule is reported as unreachable while half of the
headers of a source pass through it. It is not a slip in the comparison of headers, but a matter of
ports: the report forgets by which port each of the covering rules takes headers in.
-/

namespace HeaderFlow

open Checked (Gives gives_ok)
open Engine

namespace Network

variable {net : Network} {n m : Node} {port : Port} {x y : Nat → Bool} {table : TableId}
  {found : List Anomaly}

/-! ### Rules that are overlaid -/

/-- Every header that the node accepts is taken from it at one of its ports. -/
def Overlaid (net : Network) (n : Node) : Prop :=
  ∀ x, n.Accepts x → ∃ port ∈ n.inPorts.toList, net.Outranked n port x

/-- The rules of higher priority that share a port with the rule have all its ports. -/
def Enclosed (net : Network) (n : Node) : Prop :=
  ∀ m ∈ net.nodes, ∀ r r', n.rule? = some r → m.rule? = some r' → r'.table = r.table →
    r'.index < r.index → (∃ port ∈ n.inPorts.toList, port ∈ m.inPorts.toList) →
    ∀ port ∈ n.inPorts.toList, port ∈ m.inPorts.toList

/-- No header enters the node by the port and leaves it, from whatever source and by whatever
links. -/
def Blocked (net : Network) (n : Node) (port : Port) : Prop :=
  ∀ space q legs y, ¬ Trace net space (⟨q, n, port⟩ :: legs) y

/-- A rule with one port shares all its ports if it shares any. -/
theorem enclosed_of_length_le (hone : n.inPorts.toList.length ≤ 1) : net.Enclosed n := by
  rintro m - r r' - - - - ⟨port, hn, hm⟩ port' hn'
  obtain ⟨a, ha⟩ : ∃ a, n.inPorts.toList = [a] :=
    List.length_eq_one_iff.1 (Nat.le_antisymm hone (List.length_pos_of_mem hn))
  rw [ha, List.mem_singleton] at hn hn'
  rwa [hn', ← hn]

/-- **Where the rules above have all ports of the rule, its headers are taken at every port.** -/
theorem Overlaid.outranked (h : net.Overlaid n) (he : net.Enclosed n)
    (hport : port ∈ n.inPorts.toList) (hx : n.Accepts x) : net.Outranked n port x := by
  obtain ⟨port', hport', r, hr, m, hm, r', hr', htable, hlt, hmport, hmx⟩ := h x hx
  exact ⟨r, hr, m, hm, r', hr', htable, hlt,
    he m hm r r' hr hr' htable hlt ⟨port', hport', hmport⟩ port hport, hmx⟩

/-- **A rule that is overlaid by rules with all its ports is blocked**, by each of its ports. -/
theorem Overlaid.blocked (h : net.Overlaid n) (he : net.Enclosed n)
    (hport : port ∈ n.inPorts.toList) : net.Blocked n port := by
  intro space q legs y ht
  cases ht with
  | leg _ haccepts hfree _ => exact hfree (h.outranked he hport haccepts)

/-- **A rule is overlaid if the rules above cover it.** -/
theorem overlaid_of_coveredBy (h : n.core.CoveredBy (n.core.above net.layout.cores)) :
    net.Overlaid n := by
  intro x hx
  obtain ⟨k, ⟨hk, hprec, port, hkport, hnport⟩, q, hq, hkx⟩ := h.2 hx
  obtain ⟨m, hm, rfl⟩ := List.mem_map.1 hk
  obtain ⟨t, i, j, w, w', hmk, hnk, hlt⟩ := hprec
  obtain ⟨r', hr', htable', hindex'⟩ := rule?_of_kind hmk
  obtain ⟨r, hr, htable, hindex⟩ := rule?_of_kind hnk
  exact ⟨port, hnport, r, hr, m, hm, r', hr', htable'.trans htable.symm,
    hindex'.symm ▸ hindex.symm ▸ hlt, hkport, q, hq, hkx⟩

/-- What follows for a rule that is reported. -/
structure Idle (net : Network) (n : Node) : Prop where
  overlaid : net.Overlaid n
  outranked : net.Enclosed n → ∀ port ∈ n.inPorts.toList, ∀ x, n.Accepts x → net.Outranked n port x
  blocked : net.Enclosed n → ∀ port ∈ n.inPorts.toList, net.Blocked n port
  enclosed : n.inPorts.toList.length ≤ 1 → net.Enclosed n

/-- A covered rule is idle: this is all that a report has to show. -/
theorem idle_of_coveredBy (h : n.core.CoveredBy (n.core.above net.layout.cores)) : net.Idle n :=
  have ho := overlaid_of_coveredBy h
  ⟨ho, fun he _ hport _ hx ↦ ho.outranked he hport hx, fun he _ hport ↦ ho.blocked he hport,
    enclosed_of_length_le⟩

/-! ### Findings of an audit -/

/-- Each finding that a rule never applies is about a covered rule of the list. -/
def Covers (net : Network) (table : TableId) (ns : List Node) (found : List Anomaly) : Prop :=
  ∀ a ∈ found, a.kind ≠ .generalization →
    a.table = table ∧ ∃ n ∈ ns, a.rule = n.id ∧ n.core.CoveredBy (n.core.above net.layout.cores)

/-- The findings about one rule, with the rules in front of it as those of higher priority. -/
theorem covers_auditRule (hc : Core.Comparable net.layout.cores net.bytes)
    {before after : List Node} (hsplit : (net.rulesAt table).map Prod.snd = before ++ m :: after) :
    Gives (net.auditRule table before m after) (net.Covers table [m]) := by
  obtain ⟨habove, hbelow⟩ := describes_of_split hc hsplit
  refine gives_coverage_if habove fun up hup hnone ↦ gives_coverage_if hbelow fun down _ _ ↦
    gives_ok fun a ha hkind ↦ ?_
  -- whichever of the two reports it is, the comparison was asked for
  have hcovered : up.universal = true ∨ up.covers = true →
      m.core.CoveredBy (m.core.above net.layout.cores) := by
    intro hsaid
    cases hasked : net.settings.anomalies.shadow || net.settings.anomalies.reach with
    | true =>
      have hdescribes := hup hasked
      exact hsaid.elim (fun h ↦ Core.coveredBy_of_univ (hdescribes.universal.1 h))
        hdescribes.covers.1
    | false => simp [hnone hasked] at hsaid
  refine (List.mem_append.1 ha).elim (fun ha ↦ ?_) fun ha ↦ ?_
  · split at ha
    · rename_i hsaid
      obtain rfl := List.mem_singleton.1 ha
      exact ⟨rfl, m, List.mem_singleton_self m, rfl,
        hcovered (.inl (Bool.and_eq_true _ _ ▸ hsaid).1)⟩
    · split at ha
      · rename_i hsaid
        obtain rfl := List.mem_singleton.1 ha
        simp only [Bool.and_eq_true] at hsaid
        exact ⟨rfl, m, List.mem_singleton_self m, rfl, hcovered (.inr hsaid.1.1)⟩
      · exact absurd ha List.not_mem_nil
  · split at ha
    · exact absurd (List.mem_singleton.1 ha ▸ rfl) hkind
    · exact absurd ha List.not_mem_nil

/-- The findings about the rest of a table, by induction along the rules. -/
theorem covers_auditRules (hc : Core.Comparable net.layout.cores net.bytes) {before ns : List Node}
    (hsplit : (net.rulesAt table).map Prod.snd = before ++ ns) :
    Gives (net.auditRules table before ns) (net.Covers table ns) := by
  induction ns generalizing before with
  | nil => exact gives_ok fun a ha ↦ absurd ha List.not_mem_nil
  | cons m ns ih =>
    have hrest : (net.rulesAt table).map Prod.snd = (before ++ [m]) ++ ns := by simpa using hsplit
    refine (covers_auditRule hc hsplit).bind fun here hhere ↦ (ih hrest).bind fun more hmore ↦
      gives_ok fun a ha hkind ↦ ?_
    rcases List.mem_append.1 ha with ha | ha
    · obtain ⟨htable, n, hn, hcov⟩ := hhere a ha hkind
      exact ⟨htable, n, List.mem_singleton.1 hn ▸ List.mem_cons_self, hcov⟩
    · obtain ⟨htable, n, hn, hcov⟩ := hmore a ha hkind
      exact ⟨htable, n, List.mem_cons_of_mem _ hn, hcov⟩

/-- **Each rule that an audit finds to be shadowed or unreachable is idle.** -/
theorem idle_of_auditTables (hL : net.layout.WellFormed)
    (hc : Core.Comparable net.layout.cores net.bytes) (ts : List TableId) :
    Gives (net.auditTables ts) fun found ↦ ∀ a ∈ found, a.kind ≠ .generalization →
      ∃ n ∈ net.nodes, ∃ r, n.rule? = some r ∧ r.table = a.table ∧ n.id = a.rule ∧ net.Idle n := by
  induction ts with
  | nil => exact gives_ok fun a ha ↦ absurd ha List.not_mem_nil
  | cons t ts ih =>
    have hrules : Gives (net.rulesOf t) (· = net.rulesAt t) := ⟨_, rulesOf_eq hL t, rfl⟩
    refine hrules.bind fun rules heq ↦ ?_
    subst heq
    refine (covers_auditRules hc (List.nil_append _).symm).bind fun here hhere ↦
      ih.bind fun more hmore ↦ gives_ok fun a ha hkind ↦ ?_
    rcases List.mem_append.1 ha with ha | ha
    · obtain ⟨rfl, n, hn, hid, hcov⟩ := hhere a ha hkind
      obtain ⟨e, he, rfl⟩ := List.mem_map.1 hn
      obtain ⟨hmem, r, hr, htable, -⟩ := mem_rulesAt.1 he
      exact ⟨e.2, hmem, r, hr, htable, hid.symm, idle_of_coveredBy hcov⟩
    · exact hmore a ha hkind

/-- **Each rule that an audit reports as shadowed or unreachable is idle**, in whichever table it
is. -/
theorem idle_of_audit (hL : net.layout.WellFormed) (hc : Core.Comparable net.layout.cores net.bytes)
    {which : Option TableId} (hfound : (net.audit which).result = .ok found) :
    ∀ a ∈ found, a.kind ≠ .generalization →
      ∃ n ∈ net.nodes, ∃ r, n.rule? = some r ∧ r.table = a.table ∧ n.id = a.rule ∧ net.Idle n := by
  simp only [audit] at hfound
  split at hfound
  · cases hfound
  · rename_i ts hts
    obtain ⟨found', hfound', hidle⟩ := idle_of_auditTables hL hc ts
    rw [hfound'] at hfound
    obtain rfl := Except.ok.inj hfound
    exact hidle

/-! ### Reports about a new rule -/

/-- **A new rule that is reported is idle.** -/
theorem idle_of_addRule (ha : Arises net) {spec : RuleSpec} {report : Report}
    (hreport : report ∈ (net.addRule spec).reports) (hcoverage : report.isCoverage = true) :
    ∃ n ∈ (net.addRule spec).network.nodes, n.key = net.nextKey ∧
      n.id = ruleId spec.table spec.index ∧
      (report = .unreachable n.id (net.addRule spec).network.lastEvent ∨
        ∃ ids, report = .shadow n.id ids (net.addRule spec).network.lastEvent) ∧
      (net.addRule spec).network.Idle n := by
  have ha' : Arises (net.addRule spec).network := ha.apply (.addRule spec) trivial
  have hmem := List.mem_filter.2 ⟨hreport, hcoverage⟩
  rcases addRule_cases ha spec with
    ⟨e, -, hrefused⟩ | ⟨t, w, p, -, hleft, ⟨-, hunborn⟩ | ⟨-, hrelated⟩⟩
  · rw [hrefused] at hreport
    exact absurd hreport List.not_mem_nil
  · rw [hleft.reports, List.filter_reverse, hunborn.silent] at hmem
    exact absurd hmem List.not_mem_nil
  obtain ⟨hthere, c, hsaid, hunasked, hdescribes⟩ := coverage_of_related ha' hleft hrelated rfl
  obtain ⟨n, hn, hcore⟩ := List.mem_map.1 hthere
  rw [hsaid] at hmem
  have hid : n.id = (nodeOf spec t w net.nextKey).id := congrArg Core.id hcore
  have hkey : n.key = net.nextKey := congrArg Core.key hcore
  have hcovered : c.universal = true ∨ c.covers = true → (net.addRule spec).network.Idle n := by
    intro htold
    cases hcheck : (net.addRule spec).network.settings.checkShadow with
    | true =>
      have hdescribes := hcore ▸ hdescribes hcheck
      exact idle_of_coveredBy (htold.elim
        (fun h ↦ Core.coveredBy_of_univ (hdescribes.universal.1 h)) hdescribes.covers.1)
    | false => simp [hunasked hcheck] at htold
  refine ⟨n, hn, hkey, hid, ?_⟩
  rw [coverageReports] at hmem
  split at hmem
  · exact ⟨.inl (by rw [hid]; exact List.mem_singleton.1 hmem), hcovered (.inl ‹_›)⟩
  · split at hmem
    · exact ⟨.inr ⟨_, by rw [hid]; exact List.mem_singleton.1 hmem⟩, hcovered (.inr ‹_›)⟩
    · exact absurd hmem List.not_mem_nil

/-- **Every rule that is reported as shadowed or unreachable is idle**, in each network that can
arise: when it is added, also if the addition is broken off, and in an audit. Each header that it
accepts is taken from it at one of its ports, and at all of them if the rules of higher priority
that share one have them all. -/
theorem Arises.reported_idle (ha : Arises net) :
    (∀ spec, ∀ report ∈ (net.addRule spec).reports, report.isCoverage = true →
      ∃ n ∈ (net.addRule spec).network.nodes, n.key = net.nextKey ∧
        n.id = ruleId spec.table spec.index ∧
        (report = .unreachable n.id (net.addRule spec).network.lastEvent ∨
          ∃ ids, report = .shadow n.id ids (net.addRule spec).network.lastEvent) ∧
        (net.addRule spec).network.Idle n) ∧
    (∀ table found, (net.audit table).result = .ok found → ∀ a ∈ found, a.kind ≠ .generalization →
      ∃ n ∈ net.nodes, ∃ r, n.rule? = some r ∧ r.table = a.table ∧ n.id = a.rule ∧ net.Idle n) :=
  ⟨fun _ _ hreport hcoverage ↦ idle_of_addRule ha hreport hcoverage,
    fun _ _ hfound ↦ idle_of_audit ha.stands.wellFormed ha.stands.comparable hfound⟩

/-- The rule that is shadowed has one port, so that no header passes it. -/
theorem reported_idle_layered : Arises layered ∧
    ∃ n ∈ (layered.addRule overshadowed).network.nodes, n.id = ruleId 1 4 ∧
      n.inPorts.toList = [11] ∧ (layered.addRule overshadowed).network.Blocked n 11 := by
  have harises : Arises layered := .apply _ (.apply _ (.apply _ (.apply _ (.new _ _) trivial)
    trivial) trivial) trivial
  have hadd := harises.reported_idle.1
  obtain ⟨report, hreport, hcoverage⟩ : ∃ report ∈ (layered.addRule overshadowed).reports,
      report.isCoverage = true := by decide +kernel
  obtain ⟨n, hn, -, hid, -, hidle⟩ := hadd overshadowed report hreport hcoverage
  have hports : ∀ m ∈ (layered.addRule overshadowed).network.nodes, m.id = ruleId 1 4 →
      m.inPorts.toList = [11] := by decide +kernel
  have hport := hports n hn hid
  refine ⟨harises, n, hn, hid, hport,
    hidle.blocked (hidle.enclosed ?_) 11 (hport ▸ List.mem_singleton_self _)⟩
  rw [hport]
  exact Nat.le_refl 1

/-- A rule for port 11 and one for port 12, which share the headers between them, and a source for
both. -/
def crossed : Network :=
  [.addTable 1 [11, 12, 13],
    .addRule { table := 1, index := 1, inPorts := [11], outPorts := [13],
               accepts := startingWith .zero .wild },
    .addRule { table := 1, index := 2, inPorts := [12], outPorts := [13],
               accepts := startingWith .one .wild },
    .addLink ⟨1, 11⟩,
    .addSourcePattern (.allWild 1) [1]].foldl (fun net m ↦ (net.apply m).network)
      (.new 1 Settings.default)

/-- The two rules cover this one, each at another port. -/
def astride : RuleSpec :=
  { table := 1, index := 3, inPorts := [11, 12], outPorts := [13],
    accepts := startingWith .wild .wild }

/-- **A rule that is reported can be in use**: half of the headers of the source go through the new
rule, because the rule that has them takes none in by port 11. -/
theorem reported_in_use : Arises crossed ∧
    (crossed.addRule astride).reports =
      [.unreachable (ruleId 1 3) (crossed.addRule astride).network.lastEvent] ∧
    ∃ n ∈ (crossed.addRule astride).network.nodes, n.id = ruleId 1 3 ∧
      ∃ port ∈ n.inPorts.toList, ∃ x, n.Accepts x ∧
      ¬ (crossed.addRule astride).network.Outranked n port x ∧
      ∃ h f, (crossed.addRule astride).network.flows.find? h = some f ∧ f.node = n.key ∧
        f.port = port ∧ f.Sends x := by
  have harises : Arises crossed :=
    .apply _ (.apply _ (.apply _ (.apply _ (.apply _ (.new _ _) trivial) trivial) trivial) trivial)
      trivial
  obtain ⟨n, hn, hid, hindex, hport, haccepts, hflow⟩ :
      ∃ n ∈ (crossed.addRule astride).network.nodes, n.id = ruleId 1 3 ∧
      (∀ r ∈ n.rule?, r.index = 3) ∧ 11 ∈ n.inPorts.toList ∧
      n.accepts = some (startingWith .wild .wild) ∧ ∃ h ∈ n.flows,
        ∃ f ∈ (crossed.addRule astride).network.flows.find? h, f.node = n.key ∧ f.port = 11 ∧
          f.processed = some (.ofPattern (startingWith .one .wild)) := by decide +kernel
  have hfirst : ∀ m ∈ (crossed.addRule astride).network.nodes, ∀ r ∈ m.rule?, r.index < 3 →
      11 ∈ m.inPorts.toList → ∀ p ∈ m.accepts, p.allows 0 true = false := by decide +kernel
  obtain ⟨h, -, f, hf, hnode, hfport, hprocessed⟩ := hflow
  refine ⟨harises, by decide +kernel, n, hn, hid, 11, hport, fun _ ↦ true, ⟨_, haccepts, ?_⟩, ?_,
    h, f, hf, hnode, hfport, _, hprocessed, Space.contains_ofPattern.2 ?_⟩
  · unfold Pattern.Matches
    decide +kernel
  · rintro ⟨r, hr, m, hm, r', hr', -, hlt, hmport, p, hp, hx⟩
    rw [hindex r hr] at hlt
    have hno := hfirst m hm r' hr' hlt hmport p hp
    rw [Pattern.matches_iff.1 hx 0] at hno
    exact absurd hno (by simp)
  · unfold Pattern.Matches
    decide +kernel

end Network

end HeaderFlow
