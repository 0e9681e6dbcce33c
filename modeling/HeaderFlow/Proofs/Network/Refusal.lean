import HeaderFlow.Proofs.Network.Measured
import HeaderFlow.Proofs.Network.SafeMutation

/-!
# Refused and broken off

A change that is refused has not begun: the network is as it was, and nothing was reported. A change
that is broken off marks the network as inconsistent, **and nothing else ever touches this mark**.
So the mark tells whether some change was broken off since the network was made
(`Network.atomic_after`). A change that succeeds leaves all visits that it entered.

These facts rest on the shape of changes. Arguments are looked at before anything is done, and what
is done then is measured (`Engine.Measured`): it can end in an overrun or in a fault, but not in a
refusal.

## What broke it off does not matter

A change may be broken off because visits are nested too deep, because there are too many of them,
or because it has taken too long. All three go by one exit, so they are one case here, and the clock
that a change is measured by enters as a parameter of which nothing is assumed.

`Outcome.Atomic` is the statement about a single change, and it takes the next identifier as a
parameter: a change that adds a source or a probe gives out one if it succeeds, and nothing else
ever does. `Network.after` is a run in which each change may succeed or fail, and `Network.answers`
is what it answers; the theorem about runs is an induction along them.
-/

namespace HeaderFlow

open Engine

variable {α β : Type} {net net' : Network} {next : NodeId} {o : Outcome α}

/-- The answer is that the change was broken off. -/
def Overran (answer : Except NetworkError α) : Prop :=
  ∃ overrun, answer = .error (.tooComplex overrun)

/-- The change gives out an identifier. -/
def Mutation.numbers : Mutation → Bool
  | .addSource .. | .addSourcePattern .. | .addProbe .. => true
  | _ => false

/-- The change adds a source. -/
def Mutation.addsSource : Mutation → Bool
  | .addSource .. | .addSourcePattern .. => true
  | _ => false

/-- What came of a change of a network, besides what it was to do. If it succeeded, `next` is the
next identifier. -/
structure Outcome.Atomic (net : Network) (next : NodeId) (o : Outcome α) : Prop where
  /-- A refused change was not begun. -/
  refused : ∀ e, o.result = .error e → (∀ overrun, e ≠ .tooComplex overrun) →
    (∀ fault, e ≠ .fault fault) → o.network = net ∧ o.reports = []
  /-- A change that was broken off is marked. -/
  marked : Overran o.result → o.network.consistent = false
  /-- Any other change keeps the mark. -/
  unmarked : ¬ Overran o.result → o.network.consistent = net.consistent
  /-- After a change that succeeds the budget is balanced, if it was before. -/
  balanced : ∀ a, o.result = .ok a → net.budget.Balanced → o.network.budget.Balanced
  numbered : ∀ a, o.result = .ok a → o.network.nextId = next

namespace Outcome

/-- A change that is refused has done nothing. -/
theorem atomic_refused {e : NetworkError} (he : ∀ overrun, e ≠ .tooComplex overrun) :
    Atomic net next (.refused net e : Outcome α) where
  refused _ _ _ _ := ⟨rfl, rfl⟩
  marked := by
    rintro ⟨o, ho⟩
    exact absurd (Except.error.inj ho) (he o)
  unmarked _ := rfl
  balanced _ _ hb := hb
  numbered _ ha := by cases ha

/-- A change that succeeds keeps the mark and leaves its visits. -/
theorem atomic_ok {a : α} {reports : List Report} (h : net'.consistent = net.consistent)
    (hbudget : net.budget.Balanced → net'.budget.Balanced) (hnext : net'.nextId = next) :
    Atomic net next (⟨.ok a, net', reports⟩ : Outcome α) where
  refused _ he := by cases he
  marked := by rintro ⟨_, ⟨⟩⟩
  unmarked _ := h
  balanced _ _ := hbudget
  numbered _ _ := hnext

/-- **A change that has begun is not refused.** -/
theorem atomic_carryOut {change : Engine α} (hm : Measured change)
    (h : net'.consistent = net.consistent) (hnext : net'.nextId = next) :
    Atomic net next (net'.carryOut change) := by
  have hend := hm.run ⟨{ net' with budget := net'.budget.reset }, []⟩
  rw [Network.carryOut]
  simp only [EStateM.run]
  cases hrun : change ⟨{ net' with budget := net'.budget.reset }, []⟩ with
  | ok a p =>
    rw [hrun] at hend
    simp only [frame, Prod.mk.injEq] at hend
    obtain ⟨hframe, hbudget⟩ := hend
    have hbalanced := net'.budget.balanced_reset
    exact atomic_ok (hframe.2.2.2.trans h) (fun _ ↦
      ⟨hbudget.depth.trans hbalanced.1, hbudget.observed hbalanced.2⟩) (hframe.2.2.1.trans hnext)
  | error e p =>
    rw [hrun] at hend
    simp only [frame, Prod.mk.injEq] at hend
    cases e with
    | overrun o =>
      refine ⟨?_, fun _ ↦ rfl, fun hno ↦ absurd ⟨o, rfl⟩ hno, (fun _ ha ↦ by cases ha),
        fun _ ha ↦ by cases ha⟩
      rintro _ ⟨⟩ hne
      exact absurd rfl (hne o)
    | fault f =>
      refine ⟨?_, ?_, fun _ ↦ hend.2.2.2.trans h, (fun _ ha ↦ by cases ha), fun _ ha ↦ by cases ha⟩
      · rintro _ ⟨⟩ - hne
        exact absurd rfl (hne f)
      · rintro ⟨_, ⟨⟩⟩

/-- A change of the answer does not matter. -/
theorem Atomic.map {k : α → β} (ha : o.Atomic net next) : (o.map k).Atomic net next := by
  have hback : ∀ e, (o.map k).result = .error e → o.result = .error e := by
    intro e he
    cases ho : o.result <;> simp_all [Outcome.map, Except.map]
  have hforth : ∀ e, o.result = .error e → (o.map k).result = .error e := fun e he ↦ by
    simp [Outcome.map, he, Except.map]
  refine ⟨fun e he ↦ ha.refused e (hback e he), ?_, fun hno ↦ ha.unmarked ?_, fun b hb ↦ ?_,
    fun b hb ↦ ?_⟩
  · rintro ⟨o, ho⟩
    exact ha.marked ⟨o, hback _ ho⟩
  · rintro ⟨o, ho⟩
    exact hno ⟨o, hforth _ ho⟩
  · cases ho : o.result with
    | ok a => exact ha.balanced a ho
    | error e => simp [hforth e ho] at hb
  · cases ho : o.result with
    | ok a => exact ha.numbered a ho
    | error e => simp [hforth e ho] at hb

end Outcome

namespace Network

open Outcome

/-! ### Each change -/

theorem atomic_addTable (net : Network) (id : TableId) (ports : List Port) :
    Atomic net net.nextId (net.addTable id ports) := by
  rw [addTable]
  split
  · exact atomic_refused fun _ ↦ by simp
  · split
    · exact atomic_refused fun _ ↦ by simp
    · exact atomic_ok rfl (fun hb ↦ hb) rfl

/-- A table is looked for before its rules are removed. -/
theorem atomic_removeTable (net : Network) (id : TableId) :
    Atomic net net.nextId (net.removeTable id) := by
  rw [removeTable]
  split
  · exact atomic_refused fun _ ↦ by simp
  · exact atomic_carryOut (.after (steady_setEvent _) fun _ ↦
      .bind (.forM measured_removeRuleNode _)
      fun _ ↦ .steady (steady_update fun _ ↦ ⟨rfl, rfl⟩)) rfl rfl

/-- A rule is looked at before it is added. -/
theorem atomic_addRule (net : Network) (spec : RuleSpec) :
    Atomic net net.nextId (net.addRule spec) := by
  rw [addRule]
  split
  · rename_i e he
    exact atomic_refused (unbroken_ruleNode net spec e he).2
  · exact atomic_carryOut (.after (steady_setEvent _) fun _ ↦
      .bind (.forM measured_removeRuleNode _) fun _ ↦
      .after (steady_addNode _) fun key ↦ .after (steady_relate key) fun _ ↦
      .after (tame_connect key).steady fun _ ↦ .bind (tame_takeWon key).measured fun _ ↦
      .bind (tame_pull key).measured fun _ ↦ measured_pure) rfl rfl

/-- A look at a node is not broken off. -/
theorem ne_tooComplex_of_expect {id : NodeId} {type : NodeType} {expected : ExpectedRole}
    {e : NetworkError} (he : net.expect id type expected = .error e) (o : Overrun) :
    e ≠ .tooComplex o := by
  obtain ⟨key, rfl⟩ | rfl | rfl := expect_eq_error he <;> simp

/-- A node is looked up before something is done with it. -/
theorem atomic_expect {id : NodeId} {type : NodeType} {expected : ExpectedRole}
    {change : Node → Engine α} (hm : ∀ n, Measured (change n)) :
    Atomic net net.nextId (match net.expect id type expected with
      | .error e => .refused net e
      | .ok n => net.carryOut (change n)) := by
  split
  · rename_i e he
    exact atomic_refused (ne_tooComplex_of_expect he)
  · exact atomic_carryOut (hm _) rfl rfl

theorem atomic_removeRule (net : Network) (id : NodeId) :
    Atomic net net.nextId (net.removeRule id) :=
  atomic_expect fun _ ↦ .after (steady_setEvent _) fun _ ↦ measured_removeRuleNode _

theorem atomic_addLink (net : Network) (l : Link) : Atomic net net.nextId (net.addLink l) := by
  rw [addLink]
  split
  · exact atomic_ok rfl (fun hb ↦ hb) rfl
  · exact atomic_carryOut (.after (steady_setEvent _) fun _ ↦
      .after (steady_update fun _ ↦ ⟨rfl, rfl⟩) fun _ ↦ (tame_connectLink l).measured) rfl rfl

theorem atomic_removeLink (net : Network) (l : Link) :
    Atomic net net.nextId (net.removeLink l) := by
  rw [removeLink]
  split
  · exact atomic_refused fun _ ↦ by simp
  · exact atomic_carryOut (.steady <| (steady_setEvent _).bind fun _ ↦
      (tame_disconnectLink l).steady.bind fun _ ↦ steady_update fun _ ↦ ⟨rfl, rfl⟩) rfl rfl

/-- A source is looked at before it is added, and it gets the next identifier. -/
theorem atomic_addSource (net : Network) (space : Space) (ports : List Port) :
    Atomic net (net.nextId + 1) (net.addSource space ports) := by
  simp only [addSource]
  split
  · exact atomic_refused fun _ ↦ by simp
  split
  · exact atomic_refused fun _ ↦ by simp
  · rename_i hid
    obtain rfl := eq_nextId_of_freshId hid
    exact atomic_carryOut (.after (steady_setEvent _) fun _ ↦ .after (steady_addNode _) fun key ↦
      .after (tame_connect key).steady fun _ ↦ .after (tame_insertFlow _).steady fun root ↦
      .after (tame_alterNode _ (by exact fun _ ↦ rfl)).steady fun _ ↦
        .bind (tame_arrive key root).measured fun _ ↦ measured_pure) rfl rfl

theorem atomic_removeSource (net : Network) (id : NodeId) :
    Atomic net net.nextId (net.removeSource id) :=
  atomic_expect fun _ ↦ .steady <| (steady_setEvent _).bind fun _ ↦ steady_removePlainNode _

/-- A probe is looked at before it is added, and it gets the next identifier. -/
theorem atomic_addProbe (net : Network) (spec : ProbeSpec) :
    Atomic net (net.nextId + 1) (net.addProbe spec) := by
  simp only [addProbe]
  split
  · rename_i e he
    exact atomic_refused (unbroken_accepts net spec e he).2
  split
  · exact atomic_refused fun _ ↦ by simp
  · rename_i hid
    obtain rfl := eq_nextId_of_freshId hid
    exact atomic_carryOut (.after (steady_addNode _) fun key ↦
      .after (tame_connect key).steady fun _ ↦
      .bind (tame_pull key).measured fun _ ↦ .steady <| (steady_startProbe key).bind fun _ ↦
        steady_pure) rfl rfl

theorem atomic_removeProbe (net : Network) (id : NodeId) :
    Atomic net net.nextId (net.removeProbe id) :=
  atomic_expect fun _ ↦ .steady <| (steady_stopProbe _).bind fun _ ↦ steady_removePlainNode _

theorem atomic_restartProbe (net : Network) (id : NodeId) :
    Atomic net net.nextId (net.restartProbe id) :=
  atomic_expect fun _ ↦ .steady <| (steady_stopProbe _).bind fun _ ↦ steady_startProbe _

theorem atomic_expand (net : Network) (bytes : Nat) : Atomic net net.nextId (net.expand bytes) := by
  rw [expand]
  split <;> exact atomic_ok rfl (fun hb ↦ hb) rfl

theorem atomic_audit (net : Network) (table : Option TableId) :
    Atomic net net.nextId (net.audit table) := by
  simp only [audit]
  split
  · rename_i e he
    refine atomic_refused ?_
    rintro o rfl
    repeat' split at he
    all_goals cases he
  · split
    · exact atomic_refused fun _ ↦ by simp
    · exact atomic_ok rfl (fun hb ↦ hb) rfl

/-- **Every change is atomic as far as it fails.** -/
theorem atomic_apply (net : Network) (m : Mutation) :
    Atomic net (if m.numbers then net.nextId + 1 else net.nextId) (net.apply m) := by
  cases m with
  | addTable id ports => exact (atomic_addTable net id ports).map
  | removeTable id => exact (atomic_removeTable net id).map
  | addRule spec => exact (atomic_addRule net spec).map
  | removeRule id => exact (atomic_removeRule net id).map
  | addLink l => exact (atomic_addLink net l).map
  | removeLink l => exact (atomic_removeLink net l).map
  | addSource space ports => exact (atomic_addSource net space ports).map
  | addSourcePattern p ports => exact (atomic_addSource net _ ports).map
  | removeSource id => exact (atomic_removeSource net id).map
  | addProbe spec => exact (atomic_addProbe net spec).map
  | removeProbe id => exact (atomic_removeProbe net id).map
  | restartProbe id => exact (atomic_restartProbe net id).map
  | expand bytes => exact (atomic_expand net bytes).map
  | audit table => exact (atomic_audit net table).map

/-! ### Many changes -/

/-- The network after some changes, whatever came of each. -/
def after (net : Network) (ms : List Mutation) : Network :=
  ms.foldl (fun net m ↦ (net.apply m).network) net

/-- What some changes answer, one after another. -/
def answers (net : Network) : List Mutation → List (Except NetworkError Reply)
  | [] => []
  | m :: ms => (net.apply m).result :: (net.apply m).network.answers ms

/-- A run may be taken in two parts. -/
theorem after_append (net : Network) (ms ms' : List Mutation) :
    net.after (ms ++ ms') = (net.after ms).after ms' := List.foldl_append

/-- **The mark is as at first unless a change was broken off.** -/
theorem consistent_after (net : Network) (ms : List Mutation) :
    (net.after ms).consistent = true ↔
      net.consistent = true ∧ ∀ answer ∈ net.answers ms, ¬ Overran answer := by
  induction ms generalizing net with
  | nil => simp [after, answers]
  | cons m ms ih =>
    have hm := atomic_apply net m
    rw [show net.after (m :: ms) = (net.apply m).network.after ms from rfl, ih, answers,
      List.forall_mem_cons]
    by_cases hover : Overran (net.apply m).result
    · simp [hm.marked hover, hover]
    · simp [hm.unmarked hover, hover]

/-- **Failing is all or nothing, and breaking off is marked for good.** Of any change, tried on any
network that came about by changes of whatever outcome: if it is refused, the network is as it was
and nothing was reported; if it is broken off, the network is marked. The mark says that some change
was broken off, and no change takes it away. A fault is no answer, so nothing is said of it here. -/
theorem atomic_after (bytes : Nat) (settings : Settings) (clock : Clock) (ms : List Mutation)
    (m : Mutation) :
    let net := (new bytes settings clock).after ms
    (∀ e, (net.apply m).result = .error e → (∀ overrun, e ≠ .tooComplex overrun) →
      (∀ fault, e ≠ .fault fault) → (net.apply m).network = net ∧ (net.apply m).reports = []) ∧
    (∀ overrun, (net.apply m).result = .error (.tooComplex overrun) →
      (net.apply m).network.consistent = false) ∧
    (net.consistent = true ↔ ∀ answer ∈ (new bytes settings clock).answers ms,
      ∀ overrun, answer ≠ .error (.tooComplex overrun)) ∧
    (net.consistent = false → ∀ ms', (net.after ms').consistent = false) := by
  intro net
  have hm := atomic_apply net m
  refine ⟨hm.refused, fun o ho ↦ hm.marked ⟨o, ho⟩, ?_, fun hmark ms' ↦ ?_⟩
  · rw [show net = (new bytes settings clock).after ms from rfl, consistent_after]
    simp [new, Overran]
  · rw [← Bool.not_eq_true, consistent_after]
    simp [hmark]

end Network

end HeaderFlow
