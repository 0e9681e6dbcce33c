import HeaderFlow.Proofs.Network.TwinRuns
import HeaderFlow.Proofs.Renumbering

/-!
# Runs without some of the sources

From a sequence of changes those can be left out that add or remove some of the sources. Other
sources and probes then get other identifiers (`renumber`), by which the changes that are left must
call them. **If the whole sequence succeeds, what is left of it is not refused**, and the networks
are twins, where what was left out is lost (`Omission.run`). Changes that are left can be broken
off, since each run has a clock of its own.

There is one way in which they can be refused, which takes more than four thousand million sources
and probes. Rules have identifiers above those (`toNat_ruleId`), and once that many have been given
out, a source can get the one of a rule; a change that was to remove one of them then finds the
other. A sequence in which that cannot happen is *apart* (`Mutation.Apart`). Which sources are there
matters for this only: there is always a twin without them (`Omission.exists_twin`), which no
sequence of changes may lead to.

## Identifiers

The counter goes up with each source and each probe (`nextId_apply`), so which identifiers a
sequence gives out can be said before it is run (`ids`), as long as all of it succeeds. **No
identifier is given out twice**: the counter would have to begin again for that, and the last source
before it does is not added any more (`bounded_of_completes`).

In the run without the sources in `D`, the counter stays behind by the number of those left out so
far. So identifiers move down, in order, and what is called differently in the first run is so in
the second, except that **a source that has moved down may meet a rule**, or a rule that was hidden
by a source is found.

## The induction

`Foretold` is what has to be known of the changes that are still to come: where rules are placed,
what sources will be called, which identifier goes with which node, and that no probe is left out.
It is handed on from change to change (`Foretold.tail`). A change is left out if it concerns a
source in `D` (`concerns`), and is then tracked by nothing; any other goes with itself under the new
identifiers (`goes_renamed`).
-/

namespace HeaderFlow

variable {net net' : Network} {ν : Naming} {D : Finset NodeId} {n : Nat} {start i j : NodeId}
  {key key' : NodeKey} {mu : Mutation} {ms : List Mutation} {reply : Reply} {p q : Mutation → Bool}

/-! ### What changes give out -/

namespace Mutation

/-- The next identifier after the change, if it succeeds. -/
def next (mu : Mutation) (start : NodeId) : NodeId := if mu.numbers then start + 1 else start

/-- How many identifiers are given out. -/
def given (ms : List Mutation) : Nat := ms.countP numbers

/-- The identifiers that changes with `p` give out, where `start` is the next one. -/
def ids (p : Mutation → Bool) (start : NodeId) : List Mutation → List NodeId
  | [] => []
  | mu :: ms => (if p mu then [start] else []) ++ ids p (mu.next start) ms

/-- The identifiers of the sources that are added. -/
abbrev addedSources : NodeId → List Mutation → List NodeId := ids addsSource

/-- The change adds a probe. -/
def addsProbe (mu : Mutation) : Bool := mu.numbers && !mu.addsSource

/-- The identifiers of the probes that are added. -/
abbrev addedProbes : NodeId → List Mutation → List NodeId := ids addsProbe

/-- A source that is added gets an identifier. -/
theorem numbers_of_addsSource (h : mu.addsSource = true) : mu.numbers = true := by
  cases mu <;> first | rfl | cases h

/-- A probe that is added gets an identifier. -/
theorem numbers_of_addsProbe (h : mu.addsProbe = true) : mu.numbers = true :=
  (Bool.and_eq_true_iff.1 h).1

/-- How many identifiers are given out, change by change. -/
theorem given_cons : given (mu :: ms) = given ms + if mu.numbers then 1 else 0 := List.countP_cons

/-- The next identifier, as a number. -/
theorem toNat_next (hlt : start.toNat + given (mu :: ms) < 2 ^ 64) :
    (mu.next start).toNat = start.toNat + if mu.numbers then 1 else 0 := by
  rw [given_cons] at hlt
  rw [next]
  split
  · rw [if_pos ‹_›] at hlt
    exact toNat_succ (by omega)
  · rfl

/-- A change that adds something gives out the next identifier. -/
theorem mem_ids_cons (hp : p mu = true) : start ∈ ids p start (mu :: ms) := by
  rw [ids, if_pos hp]
  exact List.mem_cons_self

/-- Identifiers are given out one after another. -/
theorem of_mem_ids (hp : ∀ mu, p mu = true → mu.numbers = true)
    (hlt : start.toNat + given ms < 2 ^ 64) (hi : i ∈ ids p start ms) :
    start.toNat ≤ i.toNat ∧ i.toNat < start.toNat + given ms := by
  induction ms generalizing start with
  | nil => cases hi
  | cons mu ms ih =>
    have hnext := toNat_next hlt
    rw [given_cons] at hlt ⊢
    rw [ids, List.mem_append] at hi
    obtain hi | hi := hi
    · split at hi
      · rw [List.mem_singleton.1 hi, if_pos (hp mu ‹_›)]
        omega
      · cases hi
    · obtain ⟨hlow, hhigh⟩ := ih (by omega) hi
      omega

/-- **No identifier is given out twice.** -/
theorem ids_disjoint (hp : ∀ mu, p mu = true → mu.numbers = true)
    (hq : ∀ mu, q mu = true → mu.numbers = true) (hpq : ∀ mu, p mu = true → q mu = false)
    (hlt : start.toNat + given ms < 2 ^ 64) (hi : i ∈ ids p start ms) : i ∉ ids q start ms := by
  induction ms generalizing start with
  | nil => cases hi
  | cons mu ms ih =>
    have hnext := toNat_next hlt
    rw [given_cons] at hlt
    have hlater : ∀ {r : Mutation → Bool}, (∀ mu, r mu = true → mu.numbers = true) →
        start ∈ ids r (mu.next start) ms → mu.numbers = false := by
      intro r hr hmem
      have hbound := of_mem_ids hr (by omega) hmem
      split at hnext
      · omega
      · exact Bool.eq_false_of_not_eq_true ‹_›
    rw [ids, List.mem_append] at hi ⊢
    rintro (hi' | hi')
    · split at hi'
      · obtain rfl := List.mem_singleton.1 hi'
        have hnumbers := hq mu ‹_›
        obtain hi | hi := hi
        · rw [if_neg fun h ↦ by rw [hpq mu h] at *; contradiction] at hi
          cases hi
        · cases (hlater hp hi).symm.trans hnumbers
      · cases hi'
    · obtain hi | hi := hi
      · split at hi
        · obtain rfl := List.mem_singleton.1 hi
          cases (hlater hq hi').symm.trans (hp mu ‹_›)
        · cases hi
      · exact ih (by omega) hi hi'

/-- No source is a probe. -/
theorem not_mem_addedProbes (hlt : start.toNat + given ms < 2 ^ 64)
    (hi : i ∈ addedSources start ms) : i ∉ addedProbes start ms :=
  ids_disjoint (fun _ ↦ numbers_of_addsSource) (fun _ ↦ numbers_of_addsProbe)
    (fun mu h ↦ by rw [addsProbe, h, Bool.not_true, Bool.and_false]) hlt hi

/-- No source and no probe gets the identifier of a rule. Identifiers are given out from `1` on. -/
def Apart (ms : List Mutation) : Prop :=
  ∀ spec, .addRule spec ∈ ms → given ms < (ruleId spec.table spec.index).toNat

/-- **It takes 2³² sources and probes to get there**, since no table has the identifier `0`. -/
theorem apart_of_lt (hlt : given ms < 2 ^ 32)
    (htable : ∀ spec, .addRule spec ∈ ms → spec.table ≠ 0) : Apart ms := by
  intro spec hspec
  have hpos : spec.table.toNat ≠ 0 := fun h ↦ htable spec hspec (UInt32.toNat_inj.1 h)
  have hid := toNat_ruleId spec.table spec.index
  omega

/-! ### What is left -/

/-- The change adds or removes one of the sources in `D`, where `start` is the next identifier. -/
def concerns (D : Finset NodeId) (start : NodeId) : Mutation → Bool
  | .addSource .. | .addSourcePattern .. => start ∈ D
  | .removeSource i => i ∈ D
  | _ => false

/-- The change, where sources and probes have other identifiers. -/
def renamed (rename : NodeId → NodeId) : Mutation → Mutation
  | .removeSource i => .removeSource (rename i)
  | .removeProbe i => .removeProbe (rename i)
  | .restartProbe i => .restartProbe (rename i)
  | mu => mu

/-- **The changes without the sources in `D`**, where `start` is the next identifier. -/
def without (D : Finset NodeId) (start : NodeId) : List Mutation → List Mutation
  | [] => []
  | mu :: ms =>
    (if mu.concerns D start then [] else [mu.renamed (renumber D)]) ++ without D (mu.next start) ms

/-- A change that is left gives out no identifier that is lost. -/
theorem not_mem_of_not_concerns (hmu : mu.concerns D start = false) (hnumbers : mu.numbers = true)
    (hprobe : mu.addsProbe = true → start ∉ D) : start ∉ D := by
  cases mu with
  | addSource => exact of_decide_eq_false hmu
  | addSourcePattern => exact of_decide_eq_false hmu
  | addProbe => exact hprobe rfl
  | _ => cases hnumbers

/-- A change that is left out adds or removes a source. -/
theorem of_concerns (hmu : mu.concerns D start = true) :
    mu.addsSource = true ∧ start ∈ D ∨ ∃ i ∈ D, mu = .removeSource i := by
  cases mu with
  | addSource => exact .inl ⟨rfl, of_decide_eq_true hmu⟩
  | addSourcePattern => exact .inl ⟨rfl, of_decide_eq_true hmu⟩
  | removeSource i => exact .inr ⟨i, of_decide_eq_true hmu, rfl⟩
  | _ => cases hmu

end Mutation

open Mutation

namespace Network

/-- **The counter goes up with every identifier that is given out.** -/
theorem nextId_apply (hok : (net.apply mu).result = .ok reply) :
    (net.apply mu).network.nextId = mu.next net.nextId :=
  (atomic_apply net mu).numbered reply hok

/-- The sources and probes that are added, with their identifiers. -/
def owners (net : Network) : List Mutation → List (NodeKey × NodeId)
  | [] => []
  | mu :: ms =>
    (if mu.numbers then [(net.nextKey, net.nextId)] else []) ++ (net.apply mu).network.owners ms

/-- What is owned was given out. -/
theorem ids_of_mem_owners (hok : net.Completes ms) (hmem : (key, i) ∈ net.owners ms) :
    i ∈ ids numbers net.nextId ms := by
  induction ms generalizing net with
  | nil => cases hmem
  | cons mu ms ih =>
    obtain ⟨⟨reply, hreply⟩, hok⟩ := completes_cons.1 hok
    rw [ids, ← nextId_apply hreply]
    refine List.mem_append.2 ((List.mem_append.1 hmem).imp (fun h ↦ ?_) (ih hok))
    split at h
    · rw [if_pos ‹_›]
      exact List.mem_singleton.2 (congrArg Prod.snd (List.mem_singleton.1 h))
    · cases h

/-- There is an identifier after one that was given out. -/
theorem toNat_succ_lt_of_ok (hok : (net.apply mu).result = .ok reply)
    (hnumbers : mu.numbers = true) : net.nextId.toNat + 1 < 2 ^ 64 := by
  have hlt : net.nextId.toNat < UInt64.size := net.nextId.toNat_lt
  have hsize : UInt64.size = 2 ^ 64 := rfl
  have hsource : ∀ {space ports i}, (net.addSource space ports).result = .ok i →
      net.nextId.toNat + 1 ≠ UInt64.size := by
    intro space ports i hid
    rw [addSource] at hid
    split at hid
    · cases hid
    split at hid
    · cases hid
    · rename_i hfresh
      exact (freshId_eq_ok.1 hfresh).1
  have hprobe : ∀ {spec i}, (net.addProbe spec).result = .ok i →
      net.nextId.toNat + 1 ≠ UInt64.size := by
    intro spec i hid
    rw [addProbe] at hid
    split at hid
    · cases hid
    split at hid
    · cases hid
    · rename_i hfresh
      exact (freshId_eq_ok.1 hfresh).1
  have hne : net.nextId.toNat + 1 ≠ UInt64.size := by
    cases mu with
    | addSource => exact hsource (Outcome.of_map hok).choose_spec
    | addSourcePattern => exact hsource (Outcome.of_map hok).choose_spec
    | addProbe => exact hprobe (Outcome.of_map hok).choose_spec
    | _ => cases hnumbers
  omega

/-- **The counter does not begin again**: a run for which there are not enough identifiers does not
succeed. -/
theorem bounded_of_completes (hok : net.Completes ms) : net.nextId.toNat + given ms < 2 ^ 64 := by
  induction ms generalizing net with
  | nil => exact net.nextId.toNat_lt
  | cons mu ms ih =>
    obtain ⟨⟨reply, hreply⟩, hok⟩ := completes_cons.1 hok
    have hrest := ih hok
    rw [nextId_apply hreply, next] at hrest
    rw [given_cons]
    split at hrest
    · rw [toNat_succ (toNat_succ_lt_of_ok hreply ‹_›)] at hrest
      rw [if_pos ‹_›]
      omega
    · rw [if_neg ‹_›]
      omega

/-- **No two sources or probes get the same identifier.** -/
theorem owners_unique (hok : net.Completes ms) (hmem : (key, i) ∈ net.owners ms)
    (hmem' : (key', i) ∈ net.owners ms) : key = key' := by
  induction ms generalizing net with
  | nil => cases hmem
  | cons mu ms ih =>
    have hlt := bounded_of_completes hok
    obtain ⟨⟨reply, hreply⟩, hok⟩ := completes_cons.1 hok
    have hnext := toNat_next hlt
    have hcounter := nextId_apply hreply
    rw [given_cons] at hlt
    have hlater : ∀ {key : NodeKey}, (key, net.nextId) ∈ (net.apply mu).network.owners ms →
        mu.numbers = false := by
      intro key hmem
      have hbound := of_mem_ids (fun _ h ↦ h) (by rw [hcounter]; omega) (ids_of_mem_owners hok hmem)
      rw [hcounter] at hbound
      split at hnext
      · omega
      · exact Bool.eq_false_of_not_eq_true ‹_›
    rw [owners] at hmem hmem'
    split at hmem
    · rename_i hnumbers
      rw [if_pos hnumbers] at hmem'
      obtain hmem | hmem := List.mem_append.1 hmem
      · cases List.mem_singleton.1 hmem
        obtain hmem' | hmem' := List.mem_append.1 hmem'
        · cases List.mem_singleton.1 hmem'
          rfl
        · cases (hlater hmem').symm.trans hnumbers
      · obtain hmem' | hmem' := List.mem_append.1 hmem'
        · cases List.mem_singleton.1 hmem'
          cases (hlater hmem).symm.trans hnumbers
        · exact ih hok hmem hmem'
    · rename_i hnumbers
      rw [if_neg hnumbers] at hmem'
      exact ih hok hmem hmem'

/-- No two rules are at one place in a network that is reached. -/
theorem Reached.oncePlaced {spaces : NodeKey → Option Space} (hr : net.Reached spaces) :
    Comparison.OncePlaced net := by
  intro k hk l hl r s hkr hls htable hindex
  have hkind : ∀ {k : Node} {r : Rule}, k.rule? = some r →
      k.core.kind = .rule r.table r.index r.overwrite := by
    intro k r hkr
    rw [Node.rule?] at hkr
    rw [Node.core]
    split at hkr
    · obtain rfl := Option.some.inj hkr
      rw [‹k.role = _›]
      rfl
    · cases hkr
  have hsame := hr.atRest.1.ordered.place k.core (List.mem_map_of_mem hk) l.core
    (List.mem_map_of_mem hl)
    r.table r.index r.overwrite s.overwrite (hkind hkr) (by rw [hkind hls, htable, hindex])
  exact congrArg Core.key hsame

end Network

/-! ### The comparison -/

/-- What is left out of a run, and how the rest is compared with the run itself. -/
structure Omission where
  /-- The sources that are left out. -/
  lost : Finset NodeId
  /-- What other sources, and probes, are called without them. -/
  rename : NodeId → NodeId
  /-- What rules can be called. -/
  placed : NodeId → Prop
  /-- What sources can be called. -/
  source : NodeId → Prop
  /-- Which source or probe can have which identifier. -/
  owner : NodeKey → NodeId → Prop
  /-- How time is told where they are left out. -/
  timing : Timing
  rename_injective : ∀ i j, i ∉ lost → j ∉ lost → rename i = rename j → i = j
  timing_ne : timing ≠ .same

namespace Omission

variable (w : Omission)

/-- The comparison at one length. -/
def comparison (n : Nat) : Comparison n n :=
  { Casting.same n with
    exact := False
    events := False
    timing := w.timing
    rename := w.rename
    placed := w.placed
    source := w.source
    owner := w.owner
    gone := (· ∈ w.lost)
    exact_of_events := fun h ↦ h
    exact_of_timing := fun h ↦ w.timing_ne h
    rename_of_exact := False.elim
    rename_injective := w.rename_injective }

/-- The same at every length. -/
def scale : Scale id where
  rung := w.comparison
  recasts _ _ := ⟨.rfl, rfl, fun h ↦ h, rfl, rfl, rfl, rfl, rfl, fun _ _ h ↦ congrArg _ h,
    fun _ _ h ↦ congrArg _ h, fun _ _ h ↦ congrArg _ h, fun _ _ h ↦ congrArg _ h⟩
  max_eq := Scale.max_id
  events _ _ := rfl

/-- What is known of a run before it begins. -/
structure Foretold (net : Network) (ms : List Mutation) : Prop where
  placed : ∀ spec, .addRule spec ∈ ms → w.placed (ruleId spec.table spec.index)
  sources : ∀ i ∈ addedSources net.nextId ms, w.source i
  owners : ∀ e ∈ net.owners ms, w.owner e.1 e.2
  /-- No probe is left out. -/
  probes : ∀ i ∈ addedProbes net.nextId ms, i ∉ w.lost

variable {w}

/-- After a change that succeeds, what was known is known of the rest. -/
theorem Foretold.tail (hF : w.Foretold net (mu :: ms))
    (hreply : (net.apply mu).result = .ok reply) : w.Foretold (net.apply mu).network ms where
  placed spec hspec := hF.placed spec (List.mem_cons_of_mem _ hspec)
  sources i hi := hF.sources i (List.mem_append_right _ (Network.nextId_apply hreply ▸ hi))
  owners e he := hF.owners e (List.mem_append_right _ he)
  probes i hi := hF.probes i (List.mem_append_right _ (Network.nextId_apply hreply ▸ hi))

/-- **If no source or probe can be called like a rule, nothing is mixed up**, since identifiers only
move down. -/
theorem discerns (happart : ∀ key i r, w.owner key i → w.placed r → i.toNat < r.toNat)
    (hle : ∀ i, (w.rename i).toNat ≤ i.toNat) : (w.comparison n).Discerns := by
  have hrule : ∀ {key i r}, w.owner key i → w.placed r → w.rename i ≠ r := by
    intro key i r howner hplaced heq
    have hlow := hle i
    have hhigh := happart key i r howner hplaced
    rw [heq] at hlow
    omega
  intro r key i s key' j x hi hj
  obtain ⟨hplaced, hx⟩ | ⟨hstays, howner, hx⟩ := hi.name_cases
  · obtain ⟨-, hx'⟩ | ⟨-, howner, hx'⟩ := hj.name_cases
    · exact hx.symm.trans hx'
    · exact absurd hx'.symm (hrule howner hplaced)
  · obtain ⟨hplaced, -⟩ | ⟨hstays', -, hx'⟩ := hj.name_cases
    · exact absurd hx.symm (hrule howner hplaced)
    · exact w.rename_injective i j hstays hstays' (hx.symm.trans hx')

/-- A change goes with itself under other identifiers. -/
theorem goes_renamed (mu : Mutation) : w.scale.Goes n mu (mu.renamed w.rename) := by
  have hpattern : ∀ o : Option Pattern, Option.Rel (w.comparison n).Fits o o := by
    rintro (_ | p)
    · exact .none
    · exact .some fun h ↦ ⟨rfl, h⟩
  cases mu with
  | addTable id ports => exact .change (.addTable id ports)
  | removeTable id => exact .change (.removeTable id)
  | addRule r =>
    exact .change (.addRule ⟨rfl, rfl, rfl, rfl, fun h ↦ ⟨rfl, h⟩, hpattern _, hpattern _⟩)
  | removeRule i => exact .change (.removeRule i)
  | addLink l => exact .change (.addLink l)
  | removeLink l => exact .change (.removeLink l)
  | addSource space ports => exact .change (.addSource ports fun h ↦ ⟨rfl, h⟩)
  | addSourcePattern p ports => exact .change (.addSourcePattern ports fun h ↦ ⟨rfl, h⟩)
  | removeSource i => exact .change (.removeSource i)
  | addProbe r =>
    exact .change (.addProbe ⟨rfl, Condition.alike_refl _, Condition.alike_refl _, rfl, hpattern _⟩)
  | removeProbe i => exact .change (.removeProbe i)
  | restartProbe i => exact .change (.restartProbe i)
  | expand k => exact .expand k
  | audit table => exact .change (.audit table)

/-- **A change that is left is tracked**, if what it is about is found in both networks. -/
theorem apply_left (hT : (w.comparison n).AtRest ν net net')
    (hreply : (net.apply mu).result = .ok reply) (hmu : mu.concerns w.lost net.nextId = false)
    (hfinds : (w.comparison n).Finds ν net net' mu) (hF : w.Foretold net (mu :: ms))
    (hnext : net.nextId ∉ w.lost → mu.numbers = true →
      w.rename (net.nextId + 1) = w.rename net.nextId + 1)
    (hle : (w.rename net.nextId).toNat ≤ net.nextId.toNat) :
    (∃ n' ν', (∃ reply', (net'.apply (mu.renamed w.rename)).result = .ok reply') ∧
      (w.comparison n').AtRest ν' (net.apply mu).network
        (net'.apply (mu.renamed w.rename)).network) ∨
    w.timing = .own ∧ Overran (net'.apply (mu.renamed w.rename)).result := by
  have hnumbers : mu.numbers = true →
      (w.comparison n).Numbers net.nextId ∧ w.owner net.nextKey net.nextId := by
    intro hnumbers
    have hstays : net.nextId ∉ w.lost := not_mem_of_not_concerns hmu hnumbers fun hadds ↦
      hF.probes _ (mem_ids_cons hadds)
    refine ⟨⟨hstays, hnext hstays hnumbers, hle⟩, hF.owners (net.nextKey, net.nextId) ?_⟩
    rw [Network.owners, if_pos hnumbers]
    exact List.mem_cons_self
  have hsource : mu.addsSource = true → w.source net.nextId := fun hadds ↦
    hF.sources _ (mem_ids_cons hadds)
  have hplaced : ∀ spec, mu = .addRule spec → w.placed (ruleId spec.table spec.index) := by
    rintro spec rfl
    exact hF.placed spec List.mem_cons_self
  refine (Scale.apply (F := w.scale) hT
    (goes_renamed mu) hfinds hnumbers hsource hplaced hreply).imp_left ?_
  rintro ⟨n', ν', reply', hreply', hT', -⟩
  exact ⟨n', ν', ⟨reply', hreply'⟩, hT'⟩

/-- **After any run there is a twin without the sources in question**, where all others have the
same identifiers. -/
theorem exists_twin (hrename : ∀ i, w.rename i = i) (htiming : w.timing ≠ .own)
    (hT : (w.comparison n).AtRest ν net net') (hF : w.Foretold net ms) (hok : net.Completes ms) :
    ∃ n' ν' net'', (w.comparison n').AtRest ν' (net.after ms) net'' := by
  induction ms generalizing net net' n ν with
  | nil => exact ⟨n, ν, net', hT⟩
  | cons mu ms ih =>
    obtain ⟨⟨reply, hreply⟩, hok⟩ := Network.completes_cons.1 hok
    have hnext : w.rename (net.nextId + 1) = w.rename net.nextId + 1 := by rw [hrename, hrename]
    rw [Network.after_cons]
    cases hmu : mu.concerns w.lost net.nextId with
    | true =>
      obtain ⟨hadds, hmem⟩ | ⟨i, hmem, rfl⟩ := of_concerns hmu
      · obtain ⟨ν₁, -, hT₁⟩ :=
          Comparison.AtRest.apply_add_lost (hT.countUp hnext) (fun h ↦ h) hadds hmem hreply
        exact ih hT₁ (hF.tail hreply) hok
      · obtain ⟨ν₁, -, hT₁⟩ := hT.apply_remove_lost (fun h ↦ h) hmem hreply
        exact ih hT₁ (hF.tail hreply) hok
    | false =>
      have hstays : ∀ i, mu = .removeSource i → i ∉ w.lost := by
        rintro i rfl
        exact of_decide_eq_false hmu
      have hfinds := hT.finds_of_discerns (Comparison.discerns_of_rename hrename) hstays
      have hle : (w.rename net.nextId).toNat ≤ net.nextId.toNat := by rw [hrename]
      obtain ⟨n₁, ν₁, -, hT₁⟩ :=
        (apply_left hT hreply hmu hfinds hF (fun _ _ ↦ hnext) hle).resolve_right
        fun h ↦ htiming h.1
      exact ih hT₁ (hF.tail hreply) hok

end Omission

/-! ### Runs -/

section

variable {w : Omission} (hrename : w.rename = renumber w.lost)

include hrename

/-- What both runs find is the same. -/
theorem Omission.finds_of_ok (hT : (w.comparison n).AtRest ν net net')
    (honce : Comparison.OncePlaced net)
    (hone : ∀ key key' i, w.owner key i → w.owner key' i → key = key')
    (hmu : mu.concerns w.lost net.nextId = false)
    (hreply : (net'.apply (mu.renamed (renumber w.lost))).result = .ok reply) :
    (w.comparison n).Finds ν net net' mu := by
  rw [← hrename] at hreply
  cases mu with
  | removeRule i =>
    obtain ⟨u, hu⟩ := Outcome.of_map hreply
    have hk' : ∃ k', net'.expect i .rule .rule = .ok k' := Network.expect_of_ok hu
    exact hT.toTwins.meets_rule honce hk'
  | removeSource i =>
    obtain ⟨u, hu⟩ := Outcome.of_map hreply
    have hk' : ∃ k', net'.expect (w.rename i) .source .source = .ok k' := Network.expect_of_ok hu
    have hstays : i ∉ w.lost := of_decide_eq_false hmu
    exact hT.toTwins.meets_of_owner hone (by decide) (.inr hstays) hk'
  | removeProbe i =>
    obtain ⟨u, hu⟩ := Outcome.of_map hreply
    have hk' : ∃ k', net'.expect (w.rename i) .sourceProbe .probe = .ok k' :=
      Network.expect_of_ok hu
    exact hT.toTwins.meets_of_owner hone (by decide) (.inl (by decide)) hk'
  | restartProbe i =>
    obtain ⟨u, hu⟩ := Outcome.of_map hreply
    have hk' : ∃ k', net'.expect (w.rename i) .sourceProbe .probe = .ok k' :=
      Network.expect_of_ok hu
    exact hT.toTwins.meets_of_owner hone (by decide) (.inl (by decide)) hk'
  | _ => trivial

/-- **If a run succeeds, what is left of it is not refused**, as long as nothing is mixed up: unless
some change is broken off, all of them succeed, and they lead to a twin. -/
theorem Omission.run (hT : (w.comparison n).AtRest ν net net')
    (hreached : ∃ spaces, net.Reached spaces)
    (hone : ∀ key key' i, w.owner key i → w.owner key' i → key = key') (hF : w.Foretold net ms)
    (hok : net.Completes ms)
    (hunbroken : ∀ answer ∈ net'.answers (Mutation.without w.lost net.nextId ms), ¬ Overran answer)
    (hfound : (∀ n, (w.comparison n).Discerns) ∨
      net'.Completes (Mutation.without w.lost net.nextId ms)) :
    net'.Completes (Mutation.without w.lost net.nextId ms) ∧
    ∃ n' ν', (w.comparison n').AtRest ν' (net.after ms)
      (net'.after (Mutation.without w.lost net.nextId ms)) := by
  induction ms generalizing net net' n ν with
  | nil => exact ⟨Network.completes_nil net', n, ν, hT⟩
  | cons mu ms ih =>
    obtain ⟨⟨reply, hreply⟩, hok⟩ := Network.completes_cons.1 hok
    obtain ⟨spaces, hreached⟩ := hreached
    have hreached' : ∃ spaces, (net.apply mu).network.Reached spaces :=
      ⟨_, hreached.apply mu hreply⟩
    have hlt : mu.numbers = true → net.nextId.toNat + 1 < 2 ^ 64 :=
      Network.toNat_succ_lt_of_ok hreply
    rw [Mutation.without, ← Network.nextId_apply hreply] at hunbroken hfound ⊢
    cases hmu : mu.concerns w.lost net.nextId with
    | true =>
      rw [hmu, if_pos rfl, List.nil_append] at hunbroken hfound
      rw [if_pos rfl, List.nil_append]
      obtain ⟨hadds, hmem⟩ | ⟨i, hmem, rfl⟩ := of_concerns hmu
      · have hnext : w.rename (net.nextId + 1) = w.rename net.nextId := by
          rw [hrename]
          exact renumber_succ_of_mem hmem (hlt (numbers_of_addsSource hadds))
        obtain ⟨ν₁, -, hT₁⟩ :=
          Comparison.AtRest.apply_add_lost (hT.countUp_lost hnext) (fun h ↦ h) hadds hmem hreply
        exact ih hT₁ hreached' (hF.tail hreply) hok hunbroken hfound
      · obtain ⟨ν₁, -, hT₁⟩ := hT.apply_remove_lost (fun h ↦ h) hmem hreply
        exact ih hT₁ hreached' (hF.tail hreply) hok hunbroken hfound
    | false =>
      rw [hmu, if_neg Bool.false_ne_true, List.singleton_append] at hunbroken hfound
      rw [if_neg Bool.false_ne_true, List.singleton_append, Network.completes_cons,
        Network.after_cons, Network.after_cons]
      have hstays : ∀ i, mu = .removeSource i → i ∉ w.lost := by
        rintro i rfl
        exact of_decide_eq_false hmu
      -- What the change is about has its counterpart, either because nothing is mixed up or because
      -- the change is known to find something.
      have hfinds : (w.comparison n).Finds ν net net' mu := by
        obtain hd | hok' := hfound
        · exact hT.finds_of_discerns (hd n) hstays
        · obtain ⟨⟨reply', hreply'⟩, -⟩ := Network.completes_cons.1 hok'
          exact finds_of_ok hrename hT hreached.oncePlaced hone hmu hreply'
      obtain ⟨hfirst, hlater⟩ := List.forall_mem_cons.1 hunbroken
      have hnext : net.nextId ∉ w.lost → mu.numbers = true →
          w.rename (net.nextId + 1) = w.rename net.nextId + 1 := by
        intro hmem hnumbers
        rw [hrename]
        exact renumber_succ hmem (hlt hnumbers)
      have hle : (w.rename net.nextId).toNat ≤ net.nextId.toNat := by
        rw [hrename]
        exact renumber_le
      have happly := apply_left hT hreply hmu hfinds hF hnext hle
      rw [hrename] at happly
      obtain ⟨n₁, ν₁, hreply', hT₁⟩ := happly.resolve_right fun h ↦ hfirst h.2
      obtain ⟨hrest, hend⟩ := ih hT₁ hreached' (hF.tail hreply) hok hlater
        (hfound.imp_right fun h ↦ (Network.completes_cons.1 h).2)
      exact ⟨⟨hreply', hrest⟩, hend⟩

end

end HeaderFlow
