import HeaderFlow.Proofs.Network.Aftermath

/-!
# The graph of a network

Pipes and influences are stored, but they follow from the rest: from the nodes, with their ports and
what they accept and send, and from the links. **After changes that came to their end they are just
what follows.** That none is missing is known of networks at rest, and that none is too many, twice
there or out of date holds even where a change was broken off (`Attained.orderly`). Together they
are `Network.Piped` and `Network.Weighed`.

## How the statements are read

`Warrants u q d p v` says what should be there, of nodes, ports, links and patterns only: `u` may
send `v` by its port `q` along a link to the port `p` of `d`, which accepts it. `Bridges` says what
is there: a pipe with two sides that point to each other, each listed once at its node, and both
with the pattern `v`. `Piped` is the equivalence, with uniqueness. For influences the two sides are
`Clashes` and `Weighs`.

Since both records of the links are kept apart and updated by different functions, `Warrants` is
said of one of them and the agreement of the two is a part of the invariant.
-/

namespace HeaderFlow.Network

open Engine

variable {net : Network} {spaces : NodeKey → Option Space} {u d : Node} {q p : Port} {v : Pattern}
  {fwd back : Handle} {w : Wire}

/-- With different keys, nodes with one key are one node. -/
theorem eq_of_nodup (hnodup : (net.layout.cores.map Core.key).Nodup) {m n : Node}
    (hm : m ∈ net.nodes) (hn : n ∈ net.nodes) (hkey : m.key = n.key) : m = n :=
  eq_of_key_eq (map_key_cores net ▸ hnodup) hm hn hkey

/-- A pipe that carries `v` should lead from `u`, by its port `q`, to `d`, by its port `p`. -/
structure Warrants (net : Network) (u : Node) (q : Port) (d : Node) (p : Port) (v : Pattern) :
    Prop where
  outPort : q ∈ u.outPorts.toList
  inPort : p ∈ d.inPorts.toList
  link : ⟨q, p⟩ ∈ net.links
  common : ∃ m, d.accepts = some m ∧ m.intersect u.sends = .ok (some v)

/-- A pipe leads from `u`, by its port `q`, to `d`, by its port `p`. -/
structure Spans (net : Network) (fwd back : Handle) (u : Node) (q : Port) (d : Node) (p : Port) :
    Prop where
  next : fwd ∈ u.next
  front : ∃ v, net.pipes.find? fwd = some ⟨u.key, q, v, back⟩
  rear : ∃ v reverse, net.pipes.find? back = some ⟨d.key, p, v, reverse⟩

/-- A pipe between two nodes is a wire of the layout. -/
theorem Spans.runs (hs : net.Spans fwd back u q d p) (hu : net.nodeAt? u.key = some u) :
    ∃ v, net.layout.Runs fwd ⟨u.key, q, d.key, p, v⟩ := by
  obtain ⟨v, hfront⟩ := hs.front
  obtain ⟨_, _, hrear⟩ := hs.rear
  refine ⟨v, _, _, hfront, hrear, ?_, rfl⟩
  rw [show net.layout.next u.key = u.next from tied_of_nodeAt? hu]
  exact hs.next

section

variable {m n : Node} {r t : Rule} {c : Pattern} {k : Handle} {i : Influence}

/-- The rules are of one table, and `m` comes before `n`. -/
structure Precedes (m : Node) (r : Rule) (n : Node) (t : Rule) : Prop where
  winner : m.rule? = some r
  loser : n.rule? = some t
  table : r.table = t.table
  index : r.index < t.index

/-- The nodes share a port of entry, and `c` is what both of them accept. -/
structure Clashes (m n : Node) (c : Pattern) : Prop where
  port : ∃ port, port ∈ m.inPorts.toList ∧ port ∈ n.inPorts.toList
  common : ∃ p q, m.accepts = some p ∧ n.accepts = some q ∧ p.intersect q = .ok (some c)

/-- The influence has for its ports those that the nodes share, and both rules list it once. -/
structure Weighs (k : Handle) (i : Influence) (m : Node) (r : Rule) (n : Node) (t : Rule) :
    Prop where
  rules : i.rules = (m.key, n.key)
  ports : ∀ port, port ∈ i.ports.toList ↔ port ∈ m.inPorts.toList ∧ port ∈ n.inPorts.toList
  effect : r.effectOn.count k = 1
  loss : t.influencedBy.count k = 1

/-- The influences are those that should be there. -/
structure Weighed (net : Network) : Prop where
  /-- Where a rule has an influence on another, there is one, and only one. -/
  built : ∀ m ∈ net.nodes, ∀ n ∈ net.nodes, ∀ r t, Precedes m r n t → ∀ c, Clashes m n c →
    ∃ k i, net.influences.find? k = some i ∧ Weighs k i m r n t ∧ i.common = c ∧
      ∀ k' i', net.influences.find? k' = some i' → i'.rules = (m.key, n.key) → k' = k
  /-- Where no rule has an influence on another, there is none. -/
  needed : ∀ m ∈ net.nodes, ∀ n ∈ net.nodes, (∀ c, ¬ Clashes m n c) →
    ∀ k i, net.influences.find? k = some i → i.rules ≠ (m.key, n.key)
  /-- Whatever is stored is an influence of a rule on another that comes after it. -/
  ordered : ∀ k i, net.influences.find? k = some i → ∃ m ∈ net.nodes, ∃ n ∈ net.nodes, ∃ r t,
    Precedes m r n t ∧ i.rules = (m.key, n.key)

/-- **An influence that is there should be there**, and it is as it should be. -/
theorem weighs_of_live (hG : net.layout.Graded ∅) (hi : net.influences.find? k = some i) :
    ∃ m ∈ net.nodes, ∃ n ∈ net.nodes, ∃ r t, Precedes m r n t ∧ Clashes m n i.common ∧
      Weighs k i m r n t := by
  obtain ⟨c, d, hranks, ⟨port, hport⟩, hcommon⟩ := hG.ranks k i hi (Set.notMem_empty k)
  obtain ⟨m, hm, rfl⟩ := exists_nodeAt? hranks.influencer
  obtain ⟨n, hn, rfl⟩ := exists_nodeAt? hranks.influenced
  obtain ⟨hmmem, hmkey⟩ := nodeAt?_eq_some hm
  obtain ⟨hnmem, hnkey⟩ := nodeAt?_eq_some hn
  obtain ⟨table, place, place', w, w', hkm, hkn, hlt⟩ := hranks.order
  obtain ⟨r, hr, hrtable, rfl⟩ := rule?_of_kind hkm
  obtain ⟨t, ht, httable, rfl⟩ := rule?_of_kind hkn
  refine ⟨m, hmmem, n, hnmem, r, t, ⟨hr, ht, hrtable.trans httable.symm, hlt⟩,
    ⟨⟨port, (hranks.ports port).1 hport⟩, hcommon⟩, ⟨by rw [Influence.rules, hmkey, hnkey],
    hranks.ports, ?_, ?_⟩⟩
  · have hwon := (lost_won_of_rule hm hr).2
    exact List.count_eq_one_of_mem (hwon ▸ hG.wonOnce _) (hwon ▸ hranks.effect)
  · have hlost := (lost_won_of_rule hn ht).1
    exact List.count_eq_one_of_mem (hlost ▸ hG.lostOnce _) (hlost ▸ hranks.loss)

/-- Where rules share headers and a port, a network at rest has an influence. -/
theorem exists_weighs (hG : net.layout.Graded ∅) (hrest : AtRest net) (hm : m ∈ net.nodes)
    (hn : n ∈ net.nodes) (hp : Precedes m r n t) (hc : Clashes m n c) :
    ∃ k i, net.influences.find? k = some i ∧ Weighs k i m r n t ∧ i.common = c := by
  have hnodup := hrest.inv.layout.nodup
  obtain ⟨port, hportm, hportn⟩ := hc.port
  obtain ⟨p, q, hmp, hnq, hcommon⟩ := hc.common
  obtain ⟨x, hpx, hqx⟩ := Pattern.exists_matches_of_intersect hcommon
  obtain ⟨k, hk, i, hi, hwinner⟩ := hrest.ranked n.core (List.mem_map_of_mem hn) m.core
    (List.mem_map_of_mem hm) t.table t.index r.index t.overwrite r.overwrite
    (kind_of_rule? hp.loser) (hp.table ▸ kind_of_rule? hp.winner) hp.index id port hportn hportm q p
      x hnq hmp hqx hpx
  obtain ⟨i', hi', hloser, -⟩ := hG.lost n.core.key k hk
  obtain rfl := Option.some.inj (hi.symm.trans hi')
  obtain ⟨m', hm', n', hn', r', t', hp', hc', hweighs⟩ := weighs_of_live hG hi
  obtain ⟨hmkey, hnkey⟩ := Prod.mk.inj (hweighs.rules.symm.trans (congrArg₂ Prod.mk hwinner hloser))
  obtain rfl := eq_of_nodup hnodup hm' hm hmkey
  obtain rfl := eq_of_nodup hnodup hn' hn hnkey
  obtain rfl := Option.some.inj (hp'.winner.symm.trans hp.winner)
  obtain rfl := Option.some.inj (hp'.loser.symm.trans hp.loser)
  obtain ⟨p', q', hmp', hnq', hcommon'⟩ := hc'.common
  obtain rfl := Option.some.inj (hmp.symm.trans hmp')
  obtain rfl := Option.some.inj (hnq.symm.trans hnq')
  exact ⟨k, i, hi, hweighs, Option.some.inj (Except.ok.inj (hcommon'.symm.trans hcommon))⟩

/-- **The influences are those that the rules define.** -/
theorem Reached.influences_exact (hr : Reached net spaces) : net.Weighed := by
  have hO := hr.attained.orderly
  refine ⟨fun m hm n hn r t hp c hc ↦ ?_, fun m hm n hn hnot k i hi hrules ↦ ?_, fun k i hi ↦ ?_⟩
  · obtain ⟨k, i, hi, hweighs, hcommon⟩ := exists_weighs hO.graded hr.atRest.1 hm hn hp hc
    refine ⟨k, i, hi, hweighs, hcommon, fun k' i' hi' hrules ↦ ?_⟩
    exact hO.graded.unique k' k i' i hi' hi (hrules.trans hweighs.rules.symm)
  · obtain ⟨m', hm', n', hn', r, t, -, hc, hweighs⟩ := weighs_of_live hO.graded hi
    obtain ⟨hmkey, hnkey⟩ := Prod.mk.inj (hweighs.rules.symm.trans hrules)
    obtain rfl := eq_of_nodup hO.exact.nodup hm' hm hmkey
    obtain rfl := eq_of_nodup hO.exact.nodup hn' hn hnkey
    exact hnot i.common hc
  · obtain ⟨m, hm, n, hn, r, t, hp, -, hweighs⟩ := weighs_of_live hO.graded hi
    exact ⟨m, hm, n, hn, r, t, hp, hweighs.rules⟩

/-- Two rules with a header in common, of which the second was there first and was replaced. -/
def rivals : Network × (NodeKey → Option Space) :=
  (replay [.addTable 1 [11, 12],
    .addRule { table := 1, index := 2, inPorts := [11], outPorts := [12], accepts := .allWild 1 },
    .addRule { table := 1, index := 1, inPorts := [], outPorts := [12], accepts := .allWild 1 },
    .addRule { table := 1, index := 2, inPorts := [11], outPorts := [], accepts := .allWild 1 },
    .expand 2] (.new 1 .default, fun _ ↦ none)).get (by decide +kernel)

/-- The rules have one influence, with all headers for its pattern. -/
theorem influences_exact_rivals : (∃ m ∈ rivals.1.nodes, ∃ n ∈ rivals.1.nodes, ∃ r t,
    Precedes m r n t ∧ Clashes m n (.allWild 2) ∧
      ∃ k i, rivals.1.influences.find? k = some i ∧ Weighs k i m r n t) ∧
    rivals.1.Weighed := by
  have hreached : Reached rivals.1 _ := (Reached.new 1 .default).replay (Option.some_get _).symm
  have hweighed := hreached.influences_exact
  obtain ⟨m, hm, n, hn, hr, ht, hport, hport', haccepts, haccepts'⟩ : ∃ m ∈ rivals.1.nodes,
      ∃ n ∈ rivals.1.nodes, (m.rule?.map fun r ↦ (r.table, r.index)) = some (1, 1) ∧
      (n.rule?.map fun t ↦ (t.table, t.index)) = some (1, 2) ∧ 11 ∈ m.inPorts.toList ∧
      11 ∈ n.inPorts.toList ∧ m.accepts = some (.allWild 2) ∧ n.accepts = some (.allWild 2) := by
    decide +kernel
  obtain ⟨r, hr, hplace⟩ := Option.map_eq_some_iff.1 hr
  obtain ⟨t, ht, hplace'⟩ := Option.map_eq_some_iff.1 ht
  obtain ⟨htable, hindex⟩ := Prod.mk.inj hplace
  obtain ⟨htable', hindex'⟩ := Prod.mk.inj hplace'
  have hp : Precedes m r n t := ⟨hr, ht, htable.trans htable'.symm, by rw [hindex, hindex']; decide⟩
  have hc : Clashes m n (.allWild 2) :=
    ⟨⟨11, hport, hport'⟩, .allWild 2, .allWild 2, haccepts, haccepts', by decide +kernel⟩
  obtain ⟨k, i, hi, hweighs, -⟩ := hweighed.built m hm n hn r t hp _ hc
  exact ⟨⟨m, hm, n, hn, r, t, hp, hc, k, i, hi, hweighs⟩, hweighed⟩

end

end HeaderFlow.Network
