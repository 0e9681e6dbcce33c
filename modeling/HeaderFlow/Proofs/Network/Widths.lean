import HeaderFlow.Proofs.Network.Release
import HeaderFlow.Proofs.Probe
import HeaderFlow.Proofs.Space.Widths

/-!
# Networks over headers of one length

A network *fits* if everything in it has the length of its headers: the patterns of nodes, pipes and
influences, the spaces of flows, and those in the conditions of probes. A probe fits if moreover it
has counted at least as many deciding flows as it has noted.

**Whatever is computed from a network that fits breaks no precondition**, as far as lengths and
counts are concerned. What is left of preconditions are handles and keys, of which the questions
here ask only for the nodes of flows.

There is one lemma for each function that is checked, of the form `Gives (f x) P`: the function has
a result, and the result has the right length again. So these lemmas chain, and a function that
calls others is proved from theirs alone. They go from single nodes (what two nodes share, what a
rule makes of headers) to tables (coverage, audits) and to the ways of flows (hops, ports entered,
places visited again), in the order in which the engine uses them.

Conditions of probes are wide enough because they are widened when a probe is added. A condition
that is wider than the network does not fit, which is why `Fit` is not upheld by every change that
is accepted.
-/

namespace HeaderFlow

open Checked

variable {n : Nat}

/-! ### Conditions and probes -/

/-- The headers that arrived by the chain have `n` bytes. -/
def Chain.Over (c : Chain) (n : Nat) : Prop := ∀ s, c.processed = some s → s.Over n

/-- The headers of a flow that changed have `n` bytes. -/
def FlowChange.Over (n : Nat) : FlowChange → Prop
  | .added c | .modified c => c.Over n
  | .deleted => True

namespace Condition

variable {P Q : Space → Prop} {c : Chain} {q : Condition}

/-- All spaces in the condition have the property. -/
def Spaces (P : Space → Prop) : Condition → Prop
  | .and a b | .or a b => a.Spaces P ∧ b.Spaces P
  | .not a => a.Spaces P
  | .header s => P s
  | .always | .never | .path _ => True

/-- The spaces of a widened condition are the widened ones. -/
theorem Spaces.enlarge {bytes : Nat} (hq : q.Spaces P) (hP : ∀ s, P s → Q (s.enlarge bytes)) :
    (q.enlarge bytes).Spaces Q := by
  induction q with
  | and a b iha ihb => exact ⟨iha hq.1, ihb hq.2⟩
  | or a b iha ihb => exact ⟨iha hq.1, ihb hq.2⟩
  | not a ih => exact ih hq
  | header s => exact hP s hq
  | always => trivial
  | never => trivial
  | path ps => trivial

/-- **A condition over the length of the headers can be asked.** -/
theorem Spaces.check (hq : q.Spaces (·.Over n)) (hc : c.Over n) :
    Gives (q.check c) fun _ ↦ True := by
  induction q with
  | always => exact gives_ok trivial
  | never => exact gives_ok trivial
  | and a b iha ihb =>
    refine (iha hq.1).bind fun x _ ↦ ?_
    split
    · exact ihb hq.2
    · exact gives_ok trivial
  | or a b iha ihb =>
    refine (iha hq.1).bind fun x _ ↦ ?_
    split
    · exact gives_ok trivial
    · exact ihb hq.2
  | not a ih => exact (ih hq).bind fun x _ ↦ gives_ok trivial
  | header s =>
    refine (Space.meets_decides hq.2 fun p hp ↦ ?_).gives
    exact ⟨(hc p hp).2, (hc p hp).1.trans hq.1.symm⟩
  | path ps => exact gives_ok trivial

end Condition

namespace Probe

variable {p q : Probe} {flow : Handle} {c : Chain}

/-- The conditions are over headers of `n` bytes, and every deciding flow was counted. -/
structure Fit (n : Nat) (p : Probe) : Prop where
  filter : p.filter.Spaces (·.Over n)
  test : p.test.Spaces (·.Over n)
  counted : p.noted ≤ p.deciding

/-- One flow less decides. -/
theorem gives_countDown (hfilter : p.filter.Spaces (·.Over n)) (htest : p.test.Spaces (·.Over n))
    (hlt : p.noted < p.deciding) : Gives p.countDown fun o ↦ o.1.Fit n := by
  rw [countDown, if_neg (by omega)]
  exact gives_ok ⟨hfilter, htest, show p.noted ≤ p.deciding - 1 by omega⟩

/-- **A flow that was noted as deciding was counted**, so the count can be taken back. -/
theorem Fit.forget (hp : p.Fit n) : Gives (p.forget flow) fun o ↦ o.1.Fit n := by
  have hle := hp.counted
  rw [Probe.forget]
  cases hr : p.result? flow with
  | none => exact gives_ok hp
  | some r =>
    dsimp only
    split
    · have hlt := notedBut_lt hr ‹_›
      refine Gives.map (gives_countDown hp.filter hp.test ?_) ?_
      · exact Nat.lt_of_lt_of_le hlt hle
      · exact fun _ hq ↦ hq
    · exact gives_ok ⟨hp.filter, hp.test, Nat.le_trans (notedBut_le p flow) hle⟩

/-- Looking at a flow breaks no precondition. -/
theorem Fit.examine (hp : p.Fit n) (hc : c.Over n) :
    Gives (p.examine flow c) fun o ↦ o.1.Fit n := by
  refine (hp.filter.check hc).bind fun passes _ ↦ ?_
  split
  · exact gives_ok hp
  refine (hp.test.check hc).bind fun r _ ↦ ?_
  have hle := hp.counted
  have hbut := notedBut_le p flow
  have hnoted := noted_record p flow r
  -- An answer that decides is counted, and one that does not need not be.
  have hup : (p.record flow r).countUp.1.Fit n := by
    refine ⟨hp.filter, hp.test, show (p.record flow r).noted ≤ p.deciding + 1 from ?_⟩
    split at hnoted <;> omega
  have hsame : p.decides r = false ∨ p.result? flow = some r → (p.record flow r).Fit n := by
    intro h
    refine ⟨hp.filter, hp.test, show (p.record flow r).noted ≤ p.deciding from ?_⟩
    rcases h with h | h
    · rw [if_neg (by simp [h])] at hnoted
      omega
    · split at hnoted
      · have := notedBut_lt h ‹_›
        omega
      · omega
  cases hbefore : p.result? flow with
  | none =>
    dsimp only
    split
    · exact gives_ok hup
    · rename_i hr
      exact gives_ok (hsame (.inl (by simpa only [Bool.not_eq_true] using hr)))
  | some before =>
    dsimp only
    split
    · rename_i he
      exact gives_ok (hsame (.inr (he ▸ hbefore)))
    · rename_i hne
      split
      · exact gives_ok hup
      · rename_i hr
        rw [Bool.not_eq_true] at hr
        have hlt := notedBut_lt hbefore (by rw [decides_of_ne hne, hr]; rfl)
        rw [if_neg (by simp [hr])] at hnoted
        refine (gives_countDown (p := p.record flow r) hp.filter hp.test ?_).bind fun o ho ↦
          gives_ok ho
        show (p.record flow r).noted < p.deciding
        omega

/-- **Telling a probe about a flow breaks no precondition.** -/
theorem Fit.update {change : FlowChange} (hp : p.Fit n) (hc : change.Over n) :
    Gives (p.update flow change) fun o ↦ o.1.Fit n := by
  cases change with
  | deleted => exact hp.forget
  | added c =>
    rw [Probe.update]
    split
    · exact hp.examine hc
    · exact gives_ok hp
  | modified c =>
    rw [Probe.update]
    split
    · exact hp.examine hc
    · exact hp.forget

/-- Looking at all flows breaks no precondition. -/
theorem Fit.survey {l : List (Handle × Chain)} (hp : p.Fit n) (hl : ∀ e ∈ l, e.2.Over n) :
    Gives (p.survey l) fun o ↦ o.1.Fit n := by
  induction l generalizing p with
  | nil => exact gives_ok hp
  | cons e l ih =>
    obtain ⟨flow, c⟩ := e
    have hc : c.Over n := hl _ List.mem_cons_self
    have hrest := fun {q : Probe} (hq : q.Fit n) ↦ ih hq fun e he ↦ hl e (List.mem_cons_of_mem _ he)
    refine (hp.filter.check hc).bind fun passes _ ↦ ?_
    split
    · exact hrest hp
    refine (hp.test.check hc).bind fun r _ ↦ ?_
    have hle := hp.counted
    have hbut := notedBut_le p flow
    have hnoted := noted_record p flow r
    dsimp only
    split
    · refine Gives.bind (hrest ⟨hp.filter, hp.test, ?_⟩) ?_
      · show (p.record flow r).noted ≤ p.deciding + 1
        split at hnoted <;> omega
      · exact fun o ho ↦ gives_ok ho
    · refine hrest ⟨hp.filter, hp.test, show (p.record flow r).noted ≤ p.deciding from ?_⟩
      rw [if_neg ‹_›] at hnoted
      omega

/-- Starting a probe breaks no precondition. -/
theorem Fit.start {l : List (Handle × Chain)} (hp : p.Fit n) (hl : ∀ e ∈ l, e.2.Over n) :
    Gives (p.start l) fun o ↦ o.1.Fit n := by
  have hstarted : Fit n { p with state := .started } := ⟨hp.filter, hp.test, hp.counted⟩
  refine (hstarted.survey hl).bind fun o ho ↦ gives_ok ?_
  exact ⟨ho.filter, ho.test, ho.counted⟩

/-- A probe that stops still fits. -/
theorem Fit.stop (hp : p.Fit n) : p.stop.Fit n := ⟨hp.filter, hp.test, Nat.zero_le _⟩

/-- A probe that is widened fits. -/
theorem Fit.enlarge {bytes : Nat} (hp : p.Fit n) (hle : n ≤ bytes) : (p.enlarge bytes).Fit bytes :=
  ⟨hp.filter.enlarge fun _ hs ↦ hs.enlarge hle, hp.test.enlarge fun _ hs ↦ hs.enlarge hle,
    hp.counted⟩

end Probe

/-! ### Nodes and flows -/

/-- The headers of the flow have `n` bytes. -/
structure Flow.Fit (n : Nat) (f : Flow) : Prop where
  input : f.input.Over n
  processed : ∀ s, f.processed = some s → s.Over n

/-- What a node does is over headers of `n` bytes. -/
def Role.Fit (n : Nat) : Role → Prop
  | .rule r => ∀ w, r.overwrite = some w → w.mask.bytes = n ∧ w.value.bytes = n
  | .source => True
  | .probe p => p.Fit n

/-- The node is over headers of `n` bytes. -/
structure Node.Fit (n : Nat) (m : Node) : Prop where
  accepts : ∀ p, m.accepts = some p → p.bytes = n
  sends : m.sends.bytes = n
  role : m.role.Fit n

/-- **Everything in the network has the length of its headers.** -/
structure Network.Fit (net : Network) : Prop where
  nodes : ∀ m ∈ net.nodes, m.Fit net.bytes
  pipes : ∀ h p, net.pipes.find? h = some p → p.pattern.bytes = net.bytes
  influences : ∀ k i, net.influences.find? k = some i → i.common.bytes = net.bytes
  flows : ∀ h f, net.flows.find? h = some f → f.Fit net.bytes

namespace Node

variable {m k : Node} {p : Pattern}

/-- What a rule overwrites has the length of the headers. -/
theorem Fit.rule {r : Rule} (hm : m.Fit n) (hr : m.role = .rule r) {w : Overwrite}
    (hw : r.overwrite = some w) : w.mask.bytes = n ∧ w.value.bytes = n := by
  have hrole := hm.role
  rw [hr] at hrole
  exact hrole w hw

/-- The probe at a node fits. -/
theorem Fit.probe {p : Probe} (hm : m.Fit n) (hp : m.probe? = some p) : p.Fit n := by
  have hrole := hm.role
  cases hr : m.role with
  | rule r => simp [probe?, hr] at hp
  | source => simp [probe?, hr] at hp
  | probe q =>
    rw [hr] at hrole
    simp only [probe?, hr, Option.some.injEq] at hp
    exact hp ▸ hrole

/-- **What a rule makes of headers has their length.** -/
theorem Fit.rewrite {r : Rule} {s : Space} (hm : m.Fit n) (hr : m.role = .rule r) (hs : s.Over n) :
    Gives (r.rewrite s) (·.Over n) := by
  rw [Rule.rewrite]
  cases hw : r.overwrite with
  | none => exact gives_ok hs
  | some w => exact hs.overwrite (hm.rule hr hw).1 (hm.rule hr hw).2

/-- What a node accepts of a pattern has its length. -/
theorem Fit.overlap (hm : m.Fit n) (hp : p.bytes = n) :
    Gives (m.overlap p) fun o ↦ ∀ q, o = some q → q.bytes = n := by
  rw [Node.overlap]
  cases ha : m.accepts with
  | none => exact gives_ok (by simp)
  | some q => exact Pattern.gives_intersect (hm.accepts q ha) hp

/-- What two nodes share has the length of the headers. -/
theorem Fit.overlapOther (hm : m.Fit n) (hk : k.Fit n) :
    Gives (m.overlapOther k) fun o ↦ ∀ q, o = some q → q.bytes = n := by
  rw [Node.overlapOther]
  split
  · exact gives_ok (by simp)
  · exact hm.overlap hk.sends

/-- A change of the rule that keeps what it overwrites. -/
theorem Fit.mapRule {f : Rule → Rule} (hm : m.Fit n) (hf : ∀ r, (f r).overwrite = r.overwrite) :
    (m.mapRule f).Fit n := by
  rw [Node.mapRule]
  cases hr : m.role with
  | rule r =>
    refine ⟨hm.accepts, hm.sends, fun w hw ↦ ?_⟩
    exact hm.rule hr ((hf r).symm.trans hw)
  | source => exact hm
  | probe p => exact hm

/-- A node that is widened fits. -/
theorem Fit.enlarge {bytes : Nat} (hm : m.Fit n) (hle : n ≤ bytes) :
    (m.enlarge bytes).Fit bytes := by
  have hmax : max n bytes = bytes := Nat.max_eq_right hle
  refine ⟨fun p hp ↦ ?_, ?_, ?_⟩
  · obtain ⟨q, hq, rfl⟩ := Option.map_eq_some_iff.1 hp
    rw [Pattern.bytes_enlarge, hm.accepts q hq, hmax]
  · show (m.sends.enlarge bytes).bytes = bytes
    rw [Pattern.bytes_enlarge, hm.sends, hmax]
  · rw [Node.enlarge]
    cases hr : m.role with
    | rule r =>
      intro w hw
      obtain ⟨v, hv, rfl⟩ := Option.map_eq_some_iff.1 hw
      obtain ⟨hmask, hvalue⟩ := hm.rule hr hv
      exact ⟨by rw [Pattern.bytes_enlargeWith, hmask, hmax],
        by rw [Pattern.bytes_enlarge, hvalue, hmax]⟩
    | source => trivial
    | probe p => exact (hm.probe (p := p) (by simp [probe?, hr])).enlarge hle

end Node

/-- A flow that is widened fits. -/
theorem Flow.Fit.enlarge {f : Flow} {bytes : Nat} (hf : f.Fit n) (hle : n ≤ bytes) :
    (Network.enlargeFlow bytes f).Fit bytes := by
  refine ⟨hf.input.enlarge hle, fun s hs ↦ ?_⟩
  obtain ⟨t, ht, rfl⟩ := Option.map_eq_some_iff.1 hs
  exact (hf.processed t ht).enlarge hle

/-- **Widening keeps that everything has one length.** -/
theorem Network.Fit.expand {net : Network} (hnet : net.Fit) (bytes : Nat) :
    (net.expand bytes).network.Fit := by
  rw [Network.expand]
  split
  · exact hnet
  · rename_i hlt
    have hle : net.bytes ≤ bytes := by omega
    have hmax : max net.bytes bytes = bytes := Nat.max_eq_right hle
    refine ⟨fun m hm ↦ ?_, fun h p hp ↦ ?_, fun k i hi ↦ ?_, fun h f hf ↦ ?_⟩
    · obtain ⟨m', hm', rfl⟩ := List.mem_map.1 hm
      exact (hnet.nodes m' hm').enlarge hle
    · obtain ⟨p', hp', rfl⟩ := Option.map_eq_some_iff.1 (Arena.find?_map.symm.trans hp)
      show (p'.pattern.enlarge bytes).bytes = bytes
      rw [Pattern.bytes_enlarge, hnet.pipes h p' hp', hmax]
    · obtain ⟨i', hi', rfl⟩ := Option.map_eq_some_iff.1 (Arena.find?_map.symm.trans hi)
      show (i'.common.enlarge bytes).bytes = bytes
      rw [Pattern.bytes_enlarge, hnet.influences k i' hi', hmax]
    · obtain ⟨f', hf', rfl⟩ := Option.map_eq_some_iff.1 (Arena.find?_map.symm.trans hf)
      exact (hnet.flows h f' hf').enlarge hle

/-! ### What is computed from nodes -/

/-- **What comes out of a pipe has the length of what enters it.** -/
theorem gives_pipeOut {s : Space} {side : Pipe} (hs : s.Over n) (hside : side.pattern.bytes = n) :
    Gives (Engine.pipeOut s side) (·.Over n) :=
  (hs.clip hside).bind fun _ ht ↦ ht.compact none

namespace Network

variable {net : Network} {m : Node} {ns : List Node} {p : Pattern} {es : List (UInt32 × Node)}

/-- The pipes to the nodes of a list can be found out. -/
theorem gives_wiresTo {q r : Port} (hm : m.Fit n) (hns : ∀ k ∈ ns, k.Fit n) :
    Gives (wiresTo m q r ns) fun ws ↦ ∀ w ∈ ws, w.pattern.bytes = n := by
  induction ns with
  | nil => exact gives_ok (by simp)
  | cons k ns ih =>
    refine ((hns k List.mem_cons_self).overlap hm.sends).bind fun o ho ↦
      (ih fun j hj ↦ hns j (List.mem_cons_of_mem _ hj)).bind fun ws hws ↦ gives_ok fun w hw ↦ ?_
    rcases List.mem_append.1 hw with hw | hw
    · obtain ⟨v, hv, rfl⟩ := Option.map_eq_some_iff.1 (Option.mem_toList.1 hw)
      exact ho v hv
    · exact hws w hw

/-- The pipes from the nodes of a list can be found out. -/
theorem gives_wiresFrom {q r : Port} (hm : m.Fit n) (hns : ∀ k ∈ ns, k.Fit n) :
    Gives (wiresFrom m q r ns) fun ws ↦ ∀ w ∈ ws, w.pattern.bytes = n := by
  induction ns with
  | nil => exact gives_ok (by simp)
  | cons k ns ih =>
    refine (hm.overlapOther (hns k List.mem_cons_self)).bind fun o ho ↦
      (ih fun j hj ↦ hns j (List.mem_cons_of_mem _ hj)).bind fun ws hws ↦ gives_ok fun w hw ↦ ?_
    rcases List.mem_append.1 hw with hw | hw
    · obtain ⟨v, hv, rfl⟩ := Option.map_eq_some_iff.1 (Option.mem_toList.1 hw)
      exact ho v hv
    · exact hws w hw

/-- **The pipes that a node needs have the length of the headers.** -/
theorem gives_wiresOf (hL : net.layout.WellFormed) (hm : m.Fit n)
    (hnet : ∀ k ∈ net.nodes, k.Fit n) :
    Gives (net.wiresOf m) fun ws ↦ ∀ w ∈ ws, w.pattern.bytes = n := by
  rw [wiresOf_eq hL]
  have hfilter : ∀ f : Node → Bool, ∀ k ∈ net.nodes.filter f, k.Fit n := fun f k hk ↦
    hnet k (List.mem_of_mem_filter hk)
  refine (gives_mapM fun q _ ↦ gives_mapM fun r _ ↦ gives_wiresTo hm (hfilter _)).bind
    fun outgoing hout ↦ (gives_mapM fun r _ ↦ gives_mapM fun q _ ↦
      gives_wiresFrom hm (hfilter _)).bind fun incoming hin ↦ gives_ok fun w hw ↦ ?_
  obtain ⟨ws, hws, hw⟩ := List.mem_flatten.1 hw
  obtain ⟨wss, hwss, hws⟩ := List.mem_flatten.1 hws
  rcases List.mem_append.1 hwss with hwss | hwss
  · exact hout wss hwss ws hws w hw
  · exact hin wss hwss ws hws w hw

/-- What a rule shares with another can be found out. -/
theorem gives_shared {ports : PortSet} (hp : p.bytes = n) (hm : m.Fit n) :
    Gives (shared p ports m) fun o ↦ ∀ q, o = some q → q.bytes = n := by
  rw [shared]
  split
  · exact gives_ok (by simp)
  · cases ha : m.accepts with
    | none => exact gives_ok (by simp)
    | some q => exact Pattern.gives_intersect hp (hm.accepts q ha)

/-- The influences of a rule can be found out. -/
theorem gives_influencesWith {index : UInt32} (hp : p.bytes = n) (hes : ∀ e ∈ es, e.2.Fit n) :
    Gives (influencesWith m index p es) fun is ↦ ∀ i ∈ is, i.common.bytes = n := by
  induction es with
  | nil => exact gives_ok (by simp)
  | cons e es ih =>
    obtain ⟨i, k⟩ := e
    refine (gives_shared hp (hes _ List.mem_cons_self)).bind fun o ho ↦
      (ih fun j hj ↦ hes j (List.mem_cons_of_mem _ hj)).bind fun is his ↦ gives_ok fun j hj ↦ ?_
    rcases List.mem_append.1 hj with hj | hj
    · obtain ⟨v, hv, rfl⟩ := Option.map_eq_some_iff.1 (Option.mem_toList.1 hj)
      split <;> exact ho v hv
    · exact his j hj

/-- What earlier rules cover can be gathered. -/
theorem gives_gather {ports : PortSet} {acc : Space} (hp : p.bytes = n) (hacc : acc.Over n)
    (hns : ∀ k ∈ ns, k.Fit n) : Gives (gather p ports acc ns) fun o ↦ o.1.Over n := by
  induction ns generalizing acc with
  | nil => exact gives_ok hacc
  | cons k ns ih =>
    have hrest := fun {acc : Space} (hacc : acc.Over n) ↦
      ih hacc fun j hj ↦ hns j (List.mem_cons_of_mem _ hj)
    rw [gather]
    cases ha : k.accepts with
    | none => exact hrest hacc
    | some q =>
      have hq := (hns k List.mem_cons_self).accepts q ha
      dsimp only
      split
      · exact (Pattern.gives_intersect hp hq).bind fun o _ ↦
          (hacc.addPattern hq).bind fun acc hacc ↦
          (hrest hacc).bind fun out hout ↦ gives_ok hout
      · exact hrest hacc

/-- **How rules cover another can be asked.** -/
theorem gives_coverage (hm : m.Fit net.bytes) (hns : ∀ k ∈ ns, k.Fit net.bytes) :
    Gives (net.coverage m ns) fun _ ↦ True := by
  rw [coverage]
  cases ha : m.accepts with
  | none => exact gives_ok trivial
  | some p =>
    have hp := hm.accepts p ha
    refine (gives_gather hp (Space.over_empty _) hns).bind fun o ho ↦ ?_
    dsimp only
    split
    · exact gives_ok trivial
    · refine ho.simplify.bind fun union hunion ↦ ?_
      refine (hunion.isEqual (Space.over_ofPattern (Pattern.bytes_allWild _))).bind fun _ _ ↦ ?_
      exact ((Space.over_ofPattern hp).isSubset hunion).bind fun _ _ ↦ gives_ok trivial

/-- The rules of a table fit. -/
theorem fit_rulesAt (hnet : net.Fit) {table : TableId} :
    ∀ e ∈ net.rulesAt table, e.2.Fit net.bytes :=
  fun _ he ↦ hnet.nodes _ (mem_rulesAt.1 he).1

/-- A rule can be audited. -/
theorem gives_auditRule {table : TableId} {before after : List Node} (hm : m.Fit net.bytes)
    (hbefore : ∀ k ∈ before, k.Fit net.bytes) (hafter : ∀ k ∈ after, k.Fit net.bytes) :
    Gives (net.auditRule table before m after) fun _ ↦ True := by
  have hif : ∀ (c : Bool) {ns : List Node} (k : Coverage → Checked (List Anomaly)),
      (∀ j ∈ ns, j.Fit net.bytes) → (∀ found, Gives (k found) fun _ ↦ True) →
      Gives (if c = true then net.coverage m ns >>= k else pure {} >>= k) fun _ ↦ True := by
    intro c ns k hns hk
    split
    · exact (gives_coverage hm hns).bind fun found _ ↦ hk found
    · exact hk {}
  exact hif _ _ hbefore fun _ ↦ hif _ _ hafter fun _ ↦ gives_ok trivial

/-- The rules of a table can be audited. -/
theorem gives_auditRules {table : TableId} {before : List Node}
    (hbefore : ∀ k ∈ before, k.Fit net.bytes) (hns : ∀ k ∈ ns, k.Fit net.bytes) :
    Gives (net.auditRules table before ns) fun _ ↦ True := by
  induction ns generalizing before with
  | nil => exact gives_ok trivial
  | cons k ns ih =>
    have hk := hns k List.mem_cons_self
    have hrest : ∀ j ∈ ns, j.Fit net.bytes := fun j hj ↦ hns j (List.mem_cons_of_mem _ hj)
    refine (gives_auditRule hk hbefore hrest).bind fun _ _ ↦ ?_
    refine (ih (fun j hj ↦ ?_) hrest).bind fun _ _ ↦ gives_ok trivial
    rcases List.mem_append.1 hj with hj | hj
    · exact hbefore j hj
    · exact List.mem_singleton.1 hj ▸ hk

/-- **An audit breaks no precondition.** -/
theorem gives_auditTables (hL : net.layout.WellFormed) (hnet : net.Fit) (ts : List TableId) :
    Gives (net.auditTables ts) fun _ ↦ True := by
  induction ts with
  | nil => exact gives_ok trivial
  | cons t ts ih =>
    rw [auditTables, rulesOf_eq hL]
    refine (gives_auditRules (by simp) fun k hk ↦ ?_).bind fun _ _ ↦
      ih.bind fun _ _ ↦ gives_ok trivial
    obtain ⟨e, he, rfl⟩ := List.mem_map.1 hk
    exact fit_rulesAt hnet e he

/-- How earlier rules cover a new one can be asked. -/
theorem gives_coverageAbove {index : UInt32} (hm : m.Fit net.bytes)
    (hes : ∀ e ∈ es, e.2.Fit net.bytes) :
    Gives (Engine.coverageAbove m index es net) fun _ ↦ True := by
  rw [Engine.coverageAbove]
  split
  · refine gives_coverage hm fun k hk ↦ ?_
    obtain ⟨e, he, rfl⟩ := List.mem_map.1 hk
    exact hes e (List.mem_of_mem_filter he)
  · exact gives_ok trivial

/-! ### What is computed from the way of a flow -/

variable {fs : List Flow}

/-- The nodes are there at which the flows are. -/
def Placed (net : Network) (fs : List Flow) : Prop := ∀ f ∈ fs, ∃ m, net.nodeAt? f.node = some m

/-- The node of the first flow is there. -/
theorem Placed.head {f : Flow} (hfs : net.Placed (f :: fs)) :
    Gives (net.node f.node) fun _ ↦ True := by
  obtain ⟨m, hm⟩ := hfs f List.mem_cons_self
  exact ⟨m, by rw [node, hm], trivial⟩

/-- The nodes of the other flows are there. -/
theorem Placed.tail {f : Flow} (hfs : net.Placed (f :: fs)) : net.Placed fs := fun g hg ↦
  hfs g (List.mem_cons_of_mem _ hg)

/-- Whether a place was visited before can be asked. -/
theorem Placed.revisited {key : UInt64} (hfs : net.Placed fs) :
    Gives (net.revisited key fs) fun _ ↦ True := by
  induction fs with
  | nil => exact gives_ok trivial
  | cons f fs ih =>
    refine hfs.head.bind fun m _ ↦ ?_
    split
    · exact gives_ok trivial
    · split
      · exact gives_ok trivial
      · exact ih hfs.tail

/-- Whether a table was entered by a port can be asked. -/
theorem Placed.enteredBy {port : Port} (hfs : net.Placed fs) :
    Gives (net.enteredBy port fs) fun _ ↦ True := by
  induction fs with
  | nil => exact gives_ok trivial
  | cons f fs ih =>
    refine hfs.head.bind fun m _ ↦ ?_
    split
    · exact gives_ok trivial
    · exact ih hfs.tail

/-- The nodes on the way of a flow can be listed. -/
theorem Placed.hops (hfs : net.Placed fs) : Gives (net.hops fs) fun _ ↦ True := by
  induction fs with
  | nil => exact gives_ok trivial
  | cons f fs ih => exact hfs.head.bind fun m _ ↦ (ih hfs.tail).bind fun _ _ ↦ gives_ok trivial

/-- Only flows are on the way of a flow. -/
theorem exists_of_mem_ancestry {F : Arena Flow} {fuel : Nat} {start : Option Handle} {f : Flow}
    (hf : f ∈ ancestry F fuel start) : ∃ h, F.find? h = some f := by
  induction fuel generalizing start with
  | zero => exact absurd hf List.not_mem_nil
  | succ fuel ih =>
    cases start with
    | none => exact absurd hf List.not_mem_nil
    | some h =>
      rw [ancestry] at hf
      cases hh : F.find? h with
      | none => exact absurd (hh ▸ hf) List.not_mem_nil
      | some g =>
        rw [hh] at hf
        rcases List.mem_cons.1 hf with rfl | hf
        · exact ⟨h, hh⟩
        · exact ih hf

end Network

end HeaderFlow
