import HeaderFlow.Proofs.Network.SafeMutation

/-!
# Which rules cover a rule

What is reported about a rule depends on the headers of others: on those of higher priority when it
is added, and on those of either side in an audit. `Core.Tells` says **which report is right**, in
terms of sets of headers only. It does not say how the others are collected, in which the two ways
differ.

The answer goes through a union that is collected rule by rule, simplified, and compared as a space.
None of this loses anything: the union has the headers of all rules collected (`Network.gathers`),
it has no regions only if there are no headers, because patterns with a conflict are left out, and
the comparisons decide the relations between sets.

The rules of a table come in the order of their places, and no two have one place. So a list of
rules is determined by its members (`Core.Enumerates.unique`).

## From a computation to sets

`Coverage.Describes` relates an answer to a list of nodes, and `Core.Tells` relates what is reported
to a set of them. The theorem `describes_coverage` is about the computation, for any list of rules;
`describes_coverageAbove` puts in the list that is used when a rule is added, which holds all other
rules of the table, and `above_of_split` reads off an ordered table what comes before a rule and
what comes after it.

A rule shares a port with another or it does not matter to it at all (`Core.Meets`). This is where
the ports come in, and it is the only place: the union forgets by which port each of the headers was
taken.
-/

namespace HeaderFlow

open Checked (Gives gives_ok)

variable {α : Type} {net : Network} {n m : Core} {bytes : Nat} {S : Set Core}
  {c : Coverage} {ids ids' : List NodeId} {x : Nat → Bool}

/-! ### Rules that cover others -/

namespace Core

/-- The headers that match a node. -/
def headers (n : Core) : Set (Nat → Bool) := {x | ∃ p, n.accepts = some p ∧ p.Matches x}

/-- The headers that match some of the nodes. -/
def united (S : Set Core) : Set (Nat → Bool) := {x | ∃ m ∈ S, x ∈ m.headers}

/-- The two are rules of one table, and the first has higher priority. -/
def Precedes (m n : Core) : Prop := ∃ table place place' w w', m.kind = .rule table place w ∧
  n.kind = .rule table place' w' ∧ place < place'

/-- Headers can enter both nodes by one port. -/
def Meets (m n : Core) : Prop := ∃ port, port ∈ m.inPorts.toList ∧ port ∈ n.inPorts.toList

/-- The nodes have headers at all, and together they have those of `n`. -/
def CoveredBy (n : Core) (S : Set Core) : Prop := (united S).Nonempty ∧ n.headers ⊆ united S

/-- The identifiers are those of the nodes that share headers with `n`, by decreasing priority. -/
def Enumerates (n : Core) (S : Set Core) (ids : List NodeId) : Prop :=
  ∃ ms : List Core, ids = ms.map id ∧ ms.Pairwise Precedes ∧
    ∀ m, m ∈ ms ↔ m ∈ S ∧ (m.headers ∩ n.headers).Nonempty

/-- The rules of higher priority that headers can enter by a port of `n`. -/
def above (n : Core) (cores : List Core) : Set Core := {m | m ∈ cores ∧ m.Precedes n ∧ m.Meets n}

/-- The rules of lower priority that headers can enter by a port of `n`. -/
def below (n : Core) (cores : List Core) : Set Core := {m | m ∈ cores ∧ n.Precedes m ∧ m.Meets n}

/-- What is relied on when rules are compared. -/
structure Comparable (cores : List Core) (bytes : Nat) : Prop where
  nodup : (cores.map Core.key).Nodup
  /-- No two rules have one place. -/
  place : ∀ n ∈ cores, ∀ m ∈ cores, ∀ table index w w', n.kind = .rule table index w →
    m.kind = .rule table index w' → n = m
  rule : ∀ n ∈ cores, n.IsRule → ∃ p, n.accepts = some p
  width : ∀ n ∈ cores, ∀ p, n.accepts = some p → p.bytes = bytes

/-- What was said about a rule is right: that the others leave no header at all, or else that they
leave none of its own, or else nothing. -/
structure Tells (n : Core) (S : Set Core) (unreachable shadowed : List NodeId → α) (said : List α) :
    Prop where
  unreachable : united S = Set.univ → ∃ ids, n.Enumerates S ids ∧ said = [unreachable ids]
  shadowed : united S ≠ Set.univ → n.CoveredBy S → ∃ ids, n.Enumerates S ids ∧ said = [shadowed ids]
  silent : united S ≠ Set.univ → ¬ n.CoveredBy S → said = []

/-- Priority is strict. -/
theorem Precedes.asymm (h : m.Precedes n) : ¬ n.Precedes m := by
  rintro ⟨t', b', a', v, v', hn', hm', hlt'⟩
  obtain ⟨t, a, b, w, w', hm, hn, hlt⟩ := h
  rw [hm] at hm'
  rw [hn] at hn'
  obtain ⟨rfl, rfl, rfl⟩ := Kind.rule.inj hm'
  obtain ⟨-, rfl, -⟩ := Kind.rule.inj hn'
  exact absurd (UInt32.lt_trans hlt hlt') (UInt32.lt_irrefl _)

/-- **The others determine what is listed.** -/
theorem Enumerates.unique (h : n.Enumerates S ids) (h' : n.Enumerates S ids') : ids = ids' := by
  obtain ⟨ms, rfl, hms, hmem⟩ := h
  obtain ⟨ms', rfl, hms', hmem'⟩ := h'
  have hnodup : ∀ {l : List Core}, l.Pairwise Precedes → l.Nodup := fun hl ↦
    hl.imp fun hab he ↦ (he ▸ hab).asymm (he ▸ hab)
  have hperm : ms.Perm ms' := (List.perm_ext_iff_of_nodup (hnodup hms) (hnodup hms')).2 fun m ↦
    (hmem m).trans (hmem' m).symm
  exact congrArg _ (hperm.eq_of_pairwise (fun a b _ _ hab hba ↦ absurd hba hab.asymm) hms hms')

/-- A rule that others leave no header is covered by them. -/
theorem coveredBy_of_univ (hS : united S = Set.univ) : n.CoveredBy S := by
  rw [CoveredBy, hS]
  exact ⟨Set.univ_nonempty, Set.subset_univ _⟩

end Core

/-! ### How coverage is computed -/

/-- The answer says how the nodes cover `n`. -/
structure Coverage.Describes (c : Coverage) (n : Core) (S : Set Core) : Prop where
  universal : c.universal = true ↔ Core.united S = Set.univ
  covers : c.covers = true ↔ n.CoveredBy S
  related : c.covers = true → n.Enumerates S c.related

/-- What is said in accordance with a right answer is right. -/
theorem Coverage.Describes.tells (hc : c.Describes n S) (unreachable shadowed : List NodeId → α) :
    n.Tells S unreachable shadowed (if c.universal then [unreachable c.related]
      else if c.covers then [shadowed c.related] else []) := by
  refine ⟨fun hS ↦ ?_, fun hS hcov ↦ ?_, fun hS hcov ↦ ?_⟩
  · exact ⟨c.related, hc.related (hc.covers.2 (Core.coveredBy_of_univ hS)),
      if_pos (hc.universal.2 hS)⟩
  · have hcovers := hc.covers.2 hcov
    exact ⟨c.related, hc.related hcovers, by rw [if_neg (mt hc.universal.1 hS), if_pos hcovers]⟩
  · rw [if_neg (mt hc.universal.1 hS), if_neg (mt hc.covers.1 hcov)]

/-- A pattern is added only if it has headers. -/
theorem Space.exists_addPattern {s : Space} {q : Pattern} (hs : s.Over bytes) (hq : q.bytes = bytes)
    (hempty : s.isEmpty = true ↔ ∀ x, ¬ s.Contains x) :
    ∃ u, s.addPattern q = .ok u ∧ u.Over bytes ∧ (∀ x, u.Contains x ↔ s.Contains x ∨ q.Matches x) ∧
      (u.isEmpty = true ↔ ∀ x, ¬ u.Contains x) := by
  obtain ⟨rfl, hu⟩ := hs
  obtain ⟨u, hadd, hbytes, huniform, hcontains⟩ := addPattern_yields hu hq
  refine ⟨u, hadd, ⟨hbytes, huniform⟩, hcontains, fun hnone ↦ fun x ↦ not_contains_of_isEmpty hnone,
    fun hnone ↦ ?_⟩
  rw [addPattern, checkBytes_eq_ok.2 hq] at hadd
  obtain rfl := Except.ok.inj hadd
  cases hc : q.hasConflict with
  | true =>
    simp only [hc, if_true] at hnone ⊢
    exact hempty.2 hnone
  | false =>
    obtain ⟨x, hx⟩ := Pattern.exists_matches_iff.2 hc
    exact absurd ((hcontains x).2 (.inr hx)) (hnone x)

namespace Network

/-- What is collected from rules: all their headers, and those of them that share some with `p`. -/
structure Gathers (bytes : Nat) (p : Pattern) (ports : PortSet) (acc : Space) (ns : List Node)
    (union : Space) (related : List NodeId) : Prop where
  width : union.Over bytes
  contains : ∀ x, union.Contains x ↔ acc.Contains x ∨
    ∃ m ∈ ns, m.inPorts.intersects ports = true ∧ x ∈ m.core.headers
  isEmpty : union.isEmpty = true ↔ ∀ x, ¬ union.Contains x
  related : ∃ ms : List Core, related = ms.map Core.id ∧ ms.Sublist (ns.map Node.core) ∧
    ∀ m, m ∈ ms ↔ m ∈ ns.map Node.core ∧ m.inPorts.intersects ports = true ∧
      ∃ x, x ∈ m.headers ∧ p.Matches x

/-- The headers of a node are those that its pattern matches. -/
theorem mem_headers_iff {m : Node} {q : Pattern} (hq : m.accepts = some q) :
    x ∈ m.core.headers ↔ q.Matches x := by
  constructor
  · rintro ⟨q', hq', hx⟩
    obtain rfl := Option.some.inj (hq.symm.trans hq')
    exact hx
  · exact fun hx ↦ ⟨q, hq, hx⟩

/-- A rule that headers cannot enter, or that takes none, is passed over. -/
theorem Gathers.skip {p : Pattern} {ports : PortSet} {acc union : Space} {m : Node} {ns : List Node}
    {related : List NodeId} (h : Gathers bytes p ports acc ns union related)
    (hm : m.inPorts.intersects ports = true → m.accepts = none) :
    Gathers bytes p ports acc (m :: ns) union related := by
  have hnone : ∀ x, m.inPorts.intersects ports = true → x ∉ m.core.headers := by
    rintro x hports ⟨q, hq, -⟩
    exact Option.some_ne_none q (hq.symm.trans (hm hports))
  refine ⟨h.width, fun x ↦ (h.contains x).trans ?_, h.isEmpty, ?_⟩
  · simpa only [List.mem_cons, exists_eq_or_imp] using
      or_congr_right (or_iff_right fun ⟨hports, hx⟩ ↦ hnone x hports hx).symm
  · obtain ⟨ms, hids, hsub, hmem⟩ := h.related
    refine ⟨ms, hids, hsub.cons _, fun k ↦ (hmem k).trans ?_⟩
    rw [List.map_cons, List.mem_cons]
    refine and_congr_left fun ⟨hports, x, hx, _⟩ ↦ (or_iff_right ?_).symm
    rintro rfl
    exact hnone x hports hx

/-- A rule that headers can enter adds its own. -/
theorem Gathers.take {p q : Pattern} {ports : PortSet} {acc acc' union : Space} {m : Node}
    {ns : List Node} {related : List NodeId} (h : Gathers bytes p ports acc' ns union related)
    (hacc : ∀ x, acc'.Contains x ↔ acc.Contains x ∨ q.Matches x) (hq : m.accepts = some q)
    (hbytes : p.bytes = q.bytes) (hports : m.inPorts.intersects ports = true) :
    Gathers bytes p ports acc (m :: ns) union
      (if (Pattern.meet? p q).isSome then m.id :: related else related) := by
  refine ⟨h.width, fun x ↦ (h.contains x).trans ?_, h.isEmpty, ?_⟩
  · simp only [hacc, List.mem_cons, exists_eq_or_imp, hports, true_and,
      mem_headers_iff hq, or_assoc]
  obtain ⟨ms, rfl, hsub, hmem⟩ := h.related
  cases hmeet : Pattern.meet? p q with
  | none =>
    refine ⟨ms, rfl, hsub.cons _, fun k ↦ (hmem k).trans ?_⟩
    rw [List.map_cons, List.mem_cons]
    refine and_congr_left fun ⟨_, x, hx, hp⟩ ↦ (or_iff_right ?_).symm
    rintro rfl
    exact Pattern.not_matches_of_meet?_eq_none hbytes hmeet hp ((mem_headers_iff hq).1 hx)
  | some o =>
    obtain ⟨x, hx⟩ := Pattern.exists_matches_iff.2 (Pattern.solid_of_meet?_eq_some hmeet).2
    obtain ⟨hp, hxq⟩ := (Pattern.matches_of_meet?_eq_some hbytes hmeet).1 hx
    refine ⟨m.core :: ms, rfl, hsub.cons_cons _, fun k ↦ ?_⟩
    rw [List.map_cons, List.mem_cons, List.mem_cons, hmem, or_and_right]
    refine or_congr_left (iff_self_and.2 ?_)
    rintro rfl
    exact ⟨hports, x, (mem_headers_iff hq).2 hxq, hp⟩

/-- **Nothing is lost when rules are collected.** -/
theorem gathers {p : Pattern} {ports : PortSet} {acc : Space} {ns : List Node}
    (hp : p.bytes = bytes) (hacc : acc.Over bytes)
    (hempty : acc.isEmpty = true ↔ ∀ x, ¬ acc.Contains x)
    (hns : ∀ m ∈ ns, ∀ q, m.accepts = some q → q.bytes = bytes) :
    Gives (gather p ports acc ns) fun o ↦ Gathers bytes p ports acc ns o.1 o.2 := by
  induction ns generalizing acc with
  | nil => exact gives_ok ⟨hacc, by simp, hempty, [], rfl, .refl _, by simp⟩
  | cons m ns ih =>
    have hrest := fun {acc : Space} (hacc : acc.Over bytes)
      (hempty : acc.isEmpty = true ↔ ∀ x, ¬ acc.Contains x) ↦
        ih hacc hempty fun k hk ↦ hns k (List.mem_cons_of_mem _ hk)
    rw [gather]
    cases hq : m.accepts with
    | none => exact (hrest hacc hempty).imp fun o ho ↦ ⟨ho.1, ho.2.skip fun _ ↦ hq⟩
    | some q =>
      have hbytes := hns m List.mem_cons_self q hq
      dsimp only
      split
      · rename_i hports
        obtain ⟨u, hu, hover, hcontains, huempty⟩ := Space.exists_addPattern hacc hbytes hempty
        rw [Pattern.intersect_eq (hp.trans hbytes.symm), hu]
        refine (hrest hover huempty).bind fun o ho ↦ gives_ok ?_
        exact ho.take hcontains hq (hp.trans hbytes.symm) hports
      · rename_i hports
        exact (hrest hacc hempty).imp fun o ho ↦ ⟨ho.1, ho.2.skip fun h ↦ absurd h hports⟩

section

variable {p : Pattern} {m : Node} {ns : List Node} {union : Space} {related : List NodeId}

/-- The union has the headers of the rules that share a port with `m`. -/
theorem Gathers.contains_iff (h : Gathers bytes p m.inPorts (.empty bytes) ns union related) :
    union.Contains x ↔ x ∈ Core.united {k | k ∈ ns.map Node.core ∧ k.Meets m.core} := by
  rw [h.contains, or_iff_right (Space.not_contains_of_isEmpty rfl)]
  simp only [Core.united, Set.mem_ofPred_eq, List.mem_map, PortSet.intersects_iff]
  constructor
  · rintro ⟨k, hk, hports, hx⟩
    exact ⟨k.core, ⟨⟨k, hk, rfl⟩, hports⟩, hx⟩
  · rintro ⟨_, ⟨⟨k, hk, rfl⟩, hports⟩, hx⟩
    exact ⟨k, hk, hports, hx⟩

/-- **What is collected is enumerated in order**, if the rules come by decreasing priority. -/
theorem Gathers.enumerates (h : Gathers bytes p m.inPorts (.empty bytes) ns union related)
    (hp : m.accepts = some p) (hsorted : (ns.map Node.core).Pairwise Core.Precedes) :
    m.core.Enumerates {k | k ∈ ns.map Node.core ∧ k.Meets m.core} related := by
  obtain ⟨ms, hids, hsublist, hmem⟩ := h.related
  refine ⟨ms, hids, hsorted.sublist hsublist, fun k ↦ (hmem k).trans ?_⟩
  rw [PortSet.intersects_iff, ← and_assoc]
  refine and_congr Iff.rfl (exists_congr fun x ↦ ?_)
  rw [Set.mem_inter_iff, mem_headers_iff hp]

/-- **How rules cover another is computed exactly**, from those of them that share a port with
it. -/
theorem describes_coverage (hm : ∃ p, m.accepts = some p ∧ p.bytes = net.bytes)
    (hns : ∀ k ∈ ns, ∀ q, k.accepts = some q → q.bytes = net.bytes)
    (hsorted : (ns.map Node.core).Pairwise Core.Precedes) :
    Gives (net.coverage m ns) fun c ↦
      c.Describes m.core {k | k ∈ ns.map Node.core ∧ k.Meets m.core} := by
  obtain ⟨p, hp, hbytes⟩ := hm
  have hnone : ∀ x, ¬ (Space.empty net.bytes).Contains x := fun _ ↦
    Space.not_contains_of_isEmpty rfl
  rw [coverage, hp]
  refine (gathers hbytes (Space.over_empty _) (iff_of_true rfl hnone) hns).bind fun o h ↦ ?_
  obtain ⟨union, related⟩ := o
  dsimp only
  split
  · rename_i hempty
    have hnot : ∀ x, x ∉ Core.united {k | k ∈ ns.map Node.core ∧ k.Meets m.core} := fun x hx ↦
      h.isEmpty.1 hempty x (h.contains_iff.2 hx)
    refine gives_ok ⟨⟨(by rintro ⟨⟩), fun hall ↦ ?_⟩, ⟨(by rintro ⟨⟩), fun hcov ↦ ?_⟩, by rintro ⟨⟩⟩
    · exact absurd (hall ▸ Set.mem_univ _) (hnot fun _ ↦ false)
    · exact absurd hcov.1.some_mem (hnot _)
  · rename_i hempty
    obtain ⟨hlen, huniform⟩ := h.width
    obtain ⟨u, hu, hubytes, huu, hsame⟩ := Space.simplify_yields huniform
    have hub : u.bytes = net.bytes := hubytes.trans hlen
    obtain ⟨b, hb, hall⟩ := Space.isEqual_decides huu (Space.uniform_ofPattern (.allWild net.bytes))
      ((Pattern.bytes_allWild _).trans hub.symm)
    obtain ⟨d, hd, hsub⟩ :=
      Space.isSubset_decides (Space.uniform_ofPattern p) huu (hub.trans hbytes.symm)
    rw [hu]
    refine ⟨⟨b, d, related⟩, ?_, hall.trans ?_, hsub.trans ?_, fun _ ↦ h.enumerates hp hsorted⟩
    · simp only [Checked.ok_bind, Space.all, hb, hd]
      rfl
    · rw [Set.eq_univ_iff_forall]
      refine forall_congr' fun x ↦ ?_
      rw [hsame, h.contains_iff]
      exact iff_true_right (Space.contains_all _ x)
    · have hsome : (Core.united {k | k ∈ ns.map Node.core ∧ k.Meets m.core}).Nonempty := by
        by_contra hcon
        exact hempty (h.isEmpty.2 fun x hx ↦ hcon ⟨x, h.contains_iff.1 hx⟩)
      rw [Core.CoveredBy, and_iff_right hsome]
      refine forall_congr' fun x ↦ ?_
      rw [Space.contains_ofPattern, hsame, h.contains_iff, mem_headers_iff hp]

end

/-! ### The order of rules -/

section

variable {table : TableId} {index : UInt32} {l : List (UInt32 × Node)} {m : Node} {r : Rule}

/-- In a network that stands all patterns have the length of the headers, which is all that
comparing needs. -/
theorem Stands.comparable (hs : net.Stands) : Core.Comparable net.layout.cores net.bytes := by
  have hfit := hs.fit
  obtain ⟨G, core, hfirm, -, hnet⟩ := hs
  have hcores : net.layout.cores = core.layout.cores := by rw [hnet]; rfl
  refine ⟨hcores ▸ hfirm.inv.layout.nodup, hcores ▸ hfirm.ordered.place, fun n hn hrule ↦ ?_,
    fun n hn p hp ↦ ?_⟩
  · have hproper := hfirm.inv.layout.proper n (hcores ▸ hn)
    obtain ⟨table, index, w, hkind⟩ := hrule
    rw [Core.Proper, hkind] at hproper
    obtain ⟨-, -, p, hp, -⟩ := hproper
    exact ⟨p, hp⟩
  · obtain ⟨m, hm, rfl⟩ := List.mem_map.1 hn
    exact (hfit.nodes m hm).accepts p hp

/-- The rules of a table are the nodes that say so. -/
theorem mem_map_rulesAt {k : Core} : k ∈ (net.rulesAt table).map (fun e ↦ e.2.core) ↔
    k ∈ net.layout.cores ∧ ∃ place w, k.kind = .rule table place w := by
  simp only [List.mem_map, mem_rulesAt, Network.layout]
  constructor
  · rintro ⟨e, ⟨he, r, hr, rfl, -⟩, rfl⟩
    exact ⟨⟨e.2, he, rfl⟩, r.index, r.overwrite, kind_of_rule? hr⟩
  · rintro ⟨⟨m, hm, rfl⟩, place, w, hkind⟩
    obtain ⟨r, hr, htable, -⟩ := rule?_of_kind hkind
    exact ⟨(r.index, m), ⟨hm, r, hr, htable, rfl⟩, rfl⟩

/-- **The rules of a table come by decreasing priority**, each before all that it precedes. -/
theorem precedes_rulesAt (hc : Core.Comparable net.layout.cores bytes) (table : TableId) :
    ((net.rulesAt table).map fun e ↦ e.2.core).Pairwise Core.Precedes := by
  have hkeys : (net.rulesAt table).Pairwise fun a b ↦ a.2.key ≠ b.2.key :=
    List.pairwise_map.1 (nodup_rulesAt (map_key_cores net ▸ hc.nodup))
  refine List.pairwise_map.2 (((pairwise_rulesAt net table).and hkeys).imp_of_mem
    fun {a b} ha hb ⟨hle, hne⟩ ↦ ?_)
  obtain ⟨hamem, r, hr, hrtable, hrindex⟩ := mem_rulesAt.1 ha
  obtain ⟨hbmem, s, hs, hstable, hsindex⟩ := mem_rulesAt.1 hb
  have hak := kind_of_rule? hr
  have hbk := kind_of_rule? hs
  rw [hrtable, ← hrindex] at hak
  rw [hstable, ← hsindex] at hbk
  refine ⟨table, a.1, b.1, r.overwrite, s.overwrite, hak, hbk, ?_⟩
  refine UInt32.lt_of_le_of_ne hle fun heq ↦ hne ?_
  rw [heq] at hak
  exact congrArg Core.key
    (hc.place _ (List.mem_map_of_mem hamem) _ (List.mem_map_of_mem hbmem) _ _ _ _ hak hbk)

/-- The rules before a rule are those that precede it, and the rules after it are those that it
precedes. -/
theorem above_of_split (hc : Core.Comparable net.layout.cores bytes) {before after : List Node}
    (hsplit : (net.rulesAt table).map Prod.snd = before ++ m :: after) :
    {k | k ∈ before.map Node.core ∧ k.Meets m.core} = m.core.above net.layout.cores ∧
      {k | k ∈ after.map Node.core ∧ k.Meets m.core} = m.core.below net.layout.cores := by
  have hall : (net.rulesAt table).map (fun e ↦ e.2.core) =
      before.map Node.core ++ m.core :: after.map Node.core := by
    simpa [Function.comp_def] using congrArg (List.map Node.core) hsplit
  have hmem : ∀ {k}, k ∈ before.map Node.core ++ m.core :: after.map Node.core ↔
      k ∈ net.layout.cores ∧ ∃ place w, k.kind = .rule table place w := hall ▸ mem_map_rulesAt
  obtain ⟨-, place, w, hkind⟩ := hmem.1 (List.mem_append_right _ List.mem_cons_self)
  obtain ⟨-, hafter, hbefore⟩ := List.pairwise_append.1 (hall ▸ precedes_rulesAt hc table)
  have hafter := (List.pairwise_cons.1 hafter).1
  have hthere : ∀ {k : Core}, k ∈ net.layout.cores → k.Precedes m.core ∨ m.core.Precedes k →
      k ∈ before.map Node.core ∨ k ∈ after.map Node.core := by
    intro k hk hprec
    have hrule : ∃ place w, k.kind = .rule table place w := by
      rcases hprec with ⟨t, a, b, v, v', hkk, hmk, -⟩ | ⟨t, a, b, v, v', hmk, hkk, -⟩
      all_goals
        obtain ⟨rfl, -, -⟩ := Kind.rule.inj (hkind.symm.trans hmk)
        exact ⟨_, _, hkk⟩
    rcases List.mem_append.1 (hmem.2 ⟨hk, hrule⟩) with hk | hk
    · exact .inl hk
    · refine .inr ((List.mem_cons.1 hk).resolve_left ?_)
      rintro rfl
      exact hprec.elim (fun h ↦ h.asymm h) fun h ↦ h.asymm h
  constructor
  · ext k
    refine ⟨fun ⟨hk, hmeets⟩ ↦ ⟨(hmem.1 (List.mem_append_left _ hk)).1,
      hbefore k hk _ List.mem_cons_self, hmeets⟩, fun ⟨hk, hprec, hmeets⟩ ↦ ⟨?_, hmeets⟩⟩
    exact (hthere hk (.inl hprec)).resolve_right fun hk ↦ (hafter k hk).asymm hprec
  · ext k
    refine ⟨fun ⟨hk, hmeets⟩ ↦ ⟨(hmem.1 (List.mem_append_right _ (List.mem_cons_of_mem _ hk))).1,
      hafter k hk, hmeets⟩, fun ⟨hk, hprec, hmeets⟩ ↦ ⟨?_, hmeets⟩⟩
    exact (hthere hk (.inr hprec)).resolve_left fun hk ↦
      (hbefore k hk _ List.mem_cons_self).asymm hprec

/-- A rule among those that are compared. -/
theorem accepts_of_rule? (hc : Core.Comparable net.layout.cores bytes) (hm : m ∈ net.nodes)
    (hr : m.rule? = some r) : ∃ p, m.accepts = some p ∧ p.bytes = bytes := by
  have hmem := List.mem_map_of_mem (f := Node.core) hm
  obtain ⟨p, hp⟩ := hc.rule _ hmem ⟨_, _, _, kind_of_rule? hr⟩
  exact ⟨p, hp, hc.width _ hmem p hp⟩

/-- The rules with which a new rule is compared, with their places. -/
def comparedWith (net : Network) (m : Node) (r : Rule) : List (UInt32 × Node) :=
  ((net.rulesAt r.table).filter fun e ↦ e.2.key ≠ m.key).filter fun e ↦
    e.1 < r.index && !(e.2.inPorts.inter m.inPorts).isEmpty

/-- **A new rule is compared with those above it.** -/
theorem compared_eq_above (hc : Core.Comparable net.layout.cores bytes) (hm : m ∈ net.nodes)
    (hr : m.rule? = some r) :
    {k | k ∈ ((net.comparedWith m r).map Prod.snd).map Node.core ∧ k.Meets m.core} =
      m.core.above net.layout.cores := by
  ext k
  constructor
  · rintro ⟨hk, hmeets⟩
    rw [List.map_map, List.mem_map] at hk
    obtain ⟨e, he, rfl⟩ := hk
    obtain ⟨he, hlt⟩ := List.mem_filter.1 he
    obtain ⟨hmem, s, hs, htable, hindex⟩ := mem_rulesAt.1 (List.mem_of_mem_filter he)
    simp only [Bool.and_eq_true, decide_eq_true_eq, hindex] at hlt
    exact ⟨List.mem_map_of_mem hmem, ⟨r.table, s.index, r.index, s.overwrite, r.overwrite,
      htable ▸ kind_of_rule? hs, kind_of_rule? hr, hlt.1⟩, hmeets⟩
  · rintro ⟨hk, hprec, hmeets⟩
    obtain ⟨t, a, b, w, w', hkk, hmk, hlt⟩ := id hprec
    obtain ⟨rfl, rfl, -⟩ := Kind.rule.inj ((kind_of_rule? hr).symm.trans hmk)
    obtain ⟨j, hj, rfl⟩ := List.mem_map.1 hk
    obtain ⟨s, hs, htable, hindex⟩ := rule?_of_kind hkk
    have hne : j.key ≠ m.key := fun hkey ↦ hprec.asymm (List.inj_on_of_nodup_map hc.nodup hk
      (List.mem_map_of_mem hm) hkey ▸ hprec)
    have hports : (j.inPorts.inter m.inPorts).isEmpty = false := by
      obtain ⟨port, hport⟩ := hmeets
      rw [← Bool.not_eq_true, PortSet.isEmpty_iff]
      exact fun hnone ↦ hnone port (PortSet.mem_inter.2 hport)
    have hrules : (a, j) ∈ net.rulesAt r.table := mem_rulesAt.2 ⟨hj, s, hs, htable, hindex.symm⟩
    refine ⟨List.mem_map_of_mem (List.mem_map_of_mem (f := Prod.snd) (a := (a, j)) ?_), hmeets⟩
    exact List.mem_filter.2 ⟨List.mem_filter.2 ⟨hrules, decide_eq_true hne⟩, by simp [hlt, hports]⟩

/-- **How the others cover a new rule is computed from those above it.** -/
theorem describes_coverageAbove (hc : Core.Comparable net.layout.cores net.bytes)
    (hcheck : net.settings.checkShadow = true) (hm : m ∈ net.nodes) (hr : m.rule? = some r) :
    Gives (Engine.coverageAbove m r.index
      ((net.rulesAt r.table).filter fun e ↦ e.2.key ≠ m.key) net) fun c ↦
      c.Describes m.core (m.core.above net.layout.cores) := by
  have hsub : ((net.comparedWith m r).map Prod.snd).map Node.core |>.Sublist
      ((net.rulesAt r.table).map fun e ↦ e.2.core) := by
    rw [List.map_map]
    exact (List.filter_sublist.trans List.filter_sublist).map _
  rw [Engine.coverageAbove, if_pos hcheck, ← compared_eq_above hc hm hr]
  exact describes_coverage (accepts_of_rule? hc hm hr)
    (fun k hk ↦ hc.width k.core (mem_map_rulesAt.1 (hsub.subset (List.mem_map_of_mem hk))).1)
    ((precedes_rulesAt hc r.table).sublist hsub)

end

end Network

end HeaderFlow
