import HeaderFlow.Proofs.Network.TwinWidening

/-!
# Runs of twin networks

Widening changes what stands for what, so a run is not compared by one comparison but by a *scale*
of them, one for each length that the headers can have in the first network. **A sequence of changes
that succeed is tracked by the changes that go with them, one by one**, up to the first of them that
is broken off because the second run has a clock of its own.

`Scale.apply` is the step: a change other than widening keeps the rung of the scale, and widening
goes up to the rung of the new length, because what stood for each other does so when widened
(`recasts`). `Scale.run` is the induction on the changes, where nothing is lost. A run with lost
sources has to find out for each change whether it is about one of them, so it takes the step by
itself.

Two networks without nodes are twins whatever stands for what (`Comparison.atRest_new`), and that is
where runs begin.
-/

namespace HeaderFlow

variable {net net' : Network} {ν : Naming} {f : Nat → Nat} {n : Nat} {mu mu' : Mutation}
  {ms ms' : List Mutation} {reply : Reply}

namespace Network

/-- The changes succeed, one after another. -/
def Completes (net : Network) (ms : List Mutation) : Prop :=
  ∀ answer ∈ net.answers ms, ∃ reply, answer = .ok reply

/-- What is reported of each of the changes, one after another. -/
def told (net : Network) : List Mutation → List (List Report)
  | [] => []
  | mu :: ms => (net.apply mu).reports :: (net.apply mu).network.told ms

instance : Decidable (net.Completes ms) :=
  decidable_of_iff ((net.answers ms).all Except.isOk) <| by
    rw [List.all_eq_true]
    refine forall₂_congr fun answer _ ↦ ?_
    cases answer <;> simp [Except.isOk, Except.toBool]

/-- Where nothing is asked, everything succeeds. -/
theorem completes_nil (net : Network) : net.Completes [] := by
  rintro answer ⟨⟩

/-- The first change succeeds, and so do the others after it. -/
theorem completes_cons : net.Completes (mu :: ms) ↔
    (∃ reply, (net.apply mu).result = .ok reply) ∧ (net.apply mu).network.Completes ms :=
  List.forall_mem_cons

/-- The first change comes first. -/
theorem after_cons (net : Network) (mu : Mutation) (ms : List Mutation) :
    net.after (mu :: ms) = (net.apply mu).network.after ms := rfl

/-- One sequence of changes succeeds, and then another one. -/
theorem completes_append : net.Completes (ms ++ ms') ↔ net.Completes ms ∧
    (net.after ms).Completes ms' := by
  induction ms generalizing net with
  | nil => simp [completes_nil, after]
  | cons mu ms ih =>
    rw [List.cons_append, completes_cons, completes_cons, after_cons, ih, and_assoc]

end Network

/-- No names yet. -/
def Naming.empty : Naming := ⟨fun _ ↦ none, fun _ ↦ none, fun _ ↦ none⟩

/-- **Networks without nodes are twins.** -/
theorem Comparison.atRest_new {n m : Nat} (T : Comparison n m) {s s' : Settings}
    (clock clock' : Clock) (halike : s.Alike s') (hdepth : s.maxDepth.toNat ≤ s'.maxDepth.toNat)
    (hvisits : s'.maxVisits.toNat = 0 ∨
      0 < s.maxVisits.toNat ∧ s.maxVisits.toNat ≤ s'.maxVisits.toNat)
    (htime : T.timing.Agrees (.new s clock) (.new s' clock')) (hfirst : T.rename 1 = 1) :
    T.AtRest .empty (.new n s clock) (.new m s' clock') where
  bytes := rfl
  bytes' := rfl
  settings := halike
  tables := .nil
  unrenamed := by rintro t ⟨⟩
  topology := rfl
  nextId := hfirst.symm
  consistent := rfl
  events _ := rfl
  budget :=
    Budget.Relaxes.reset ⟨hdepth, hvisits, Nat.le_refl _, Nat.le_refl _, fun _ ↦ ⟨rfl, rfl⟩, htime⟩
  nodes := .nil
  nodup := List.nodup_nil
  directory := Directory.alike_empty
  ids := Directory.addresses_empty
  ids' := Directory.addresses_empty
  reaches _ := by rintro k ⟨⟩
  registry _ := rfl
  keys := by rintro k x ⟨⟩
  keys' := by rintro k k' ⟨⟩
  injective := by rintro k l k' ⟨⟩
  sameKeys _ := ⟨rfl, by rintro k x ⟨⟩⟩
  pipes := .empty
  influences := .empty
  flows := .empty
  ranked := ⟨fun _ ↦ 0, fun h f hf ↦ absurd hf (Arena.find?_empty_ne h f)⟩
  spent _ := ⟨rfl, rfl⟩
  timed := htime

/-- How two runs are compared at each length of the headers. -/
structure Scale (f : Nat → Nat) where
  rung (n : Nat) : Comparison n (f n)
  recasts : ∀ n k, (rung n).Recasts (rung (max n k)) (.upTo n k) (.upTo (f n) k)
  max_eq : ∀ n k, f (max n k) = max (f n) k
  events : ∀ n, (rung n).events → f n = n

namespace Scale

/-- Where nothing is widened, lengths stay as they are. -/
theorem max_id (n k : Nat) : id (max n k) = max (id n) k := rfl

variable (F : Scale f)

/-- What goes with a change of the first network. -/
inductive Goes (n : Nat) : Mutation → Mutation → Prop
  | change {mu mu' : Mutation} : (F.rung n).Mutations mu mu' → Goes n mu mu'
  | expand (k : Nat) : Goes n (.expand k) (.expand k)

variable {F}

/-- **A change that succeeds is tracked by the one that goes with it.** -/
theorem apply (hT : (F.rung n).AtRest ν net net') (hmu : F.Goes n mu mu')
    (hfinds : (F.rung n).Finds ν net net' mu)
    (hnumbers : mu.numbers = true →
      (F.rung n).Numbers net.nextId ∧ (F.rung n).owner net.nextKey net.nextId)
    (hsource : mu.addsSource = true → (F.rung n).source net.nextId)
    (hplaced : ∀ spec, mu = .addRule spec → (F.rung n).placed (ruleId spec.table spec.index))
    (hok : (net.apply mu).result = .ok reply) :
    (∃ n' ν' reply', (net'.apply mu').result = .ok reply' ∧
      (F.rung n').AtRest ν' (net.apply mu).network (net'.apply mu').network ∧
      ((F.rung n).exact → (net'.apply mu').reports.map Report.bare =
        (net.apply mu).reports.map Report.bare) ∧
      ((F.rung n).events → (net'.apply mu').reports = (net.apply mu).reports) ∧
      (F.rung n).Replies reply reply') ∨
    (F.rung n).timing = .own ∧ Overran (net'.apply mu').result := by
  cases hmu with
  | change hmu =>
    refine (hT.apply hmu hfinds hnumbers hsource hplaced reply hok).imp_left ?_
    rintro ⟨reply', ν', hok', -, hrest⟩
    exact ⟨n, ν', reply', hok', hrest⟩
  | expand k =>
    have hT' := hT.expand rfl (F.max_eq n k) (F.recasts n k) fun he ↦
      ⟨(F.events n ((F.recasts n k).events he)).symm, rfl⟩
    have hbytes : net.bytes = n := hT.bytes
    have hbytes' : net'.bytes = f n := hT.bytes'
    have hreports : ∀ net : Network, (net.apply (.expand k)).reports = [] := fun net ↦ by
      rw [Network.apply, Network.expand_eq]
      rfl
    obtain rfl : .length (max net.bytes k) = reply := by
      rw [Network.apply, Network.expand_eq] at hok
      exact Except.ok.inj hok
    refine .inl ⟨max n k, ν, .length (max net'.bytes k),
      by rw [Network.apply, Network.expand_eq]; rfl, hT',
      fun _ ↦ by rw [hreports, hreports], fun _ ↦ by rw [hreports, hreports], .length fun he ↦ ?_⟩
    rw [hbytes, hbytes', F.events n he]

/-- The changes go with each other at any length. -/
def GoesAlong (F : Scale f) (ms ms' : List Mutation) : Prop :=
  List.Forall₂ (fun mu mu' ↦ ∀ n, F.Goes n mu mu') ms ms'

/-- **A run in which all changes succeed is tracked by the run that goes with it**, where nothing is
lost. -/
theorem run (hown : ∀ n, (F.rung n).timing ≠ .own) (hnumbers : ∀ n id, (F.rung n).Numbers id)
    (howner : ∀ n key id, (F.rung n).owner key id) (hsource : ∀ n id, (F.rung n).source id)
    (hplaced : ∀ n id, (F.rung n).placed id) (hexact : ∀ n, (F.rung n).exact)
    (hT : (F.rung n).AtRest ν net net') (hms : F.GoesAlong ms ms') (hok : net.Completes ms) :
    ∃ n' ν', (F.rung n').AtRest ν' (net.after ms) (net'.after ms') ∧
      List.Forall₂
        (fun answer answer' ↦ ∃ n reply reply', answer = .ok reply ∧ answer' = .ok reply' ∧
        (F.rung n).Replies reply reply') (net.answers ms) (net'.answers ms') ∧
      (net'.told ms').map (List.map Report.bare) = (net.told ms).map (List.map Report.bare) ∧
      ((∀ n, (F.rung n).events) → net'.told ms' = net.told ms) := by
  induction hms generalizing net net' n ν with
  | nil => exact ⟨n, ν, hT, .nil, rfl, fun _ ↦ rfl⟩
  | @cons mu mu' ms ms' hmu _ ih =>
    obtain ⟨⟨reply, hreply⟩, hok⟩ := Network.completes_cons.1 hok
    have hd := Comparison.discerns_of_rename ((F.rung n).rename_of_exact (hexact n))
    have hfinds : (F.rung n).Finds ν net net' mu := hT.finds_of_discerns hd fun id _ ↦
      (hnumbers n id).stays
    obtain ⟨n₁, ν₁, reply', hreply', hT₁, hbare, hsame, hreplies⟩ :=
      (apply hT (hmu n) hfinds (fun _ ↦ ⟨hnumbers n _, howner n _ _⟩) (fun _ ↦ hsource n _)
        (fun _ _ ↦ hplaced n _) hreply).resolve_right fun h ↦ hown n h.1
    obtain ⟨n₂, ν₂, hT₂, hanswers, hbares, hreports⟩ := ih hT₁ hok
    refine ⟨n₂, ν₂, hT₂, .cons ⟨n, reply, reply', hreply, hreply', hreplies⟩ hanswers, ?_,
      fun he ↦ ?_⟩
    · exact congrArg₂ List.cons (hbare (hexact n)) hbares
    · exact congrArg₂ List.cons (hsame (he n)) (hreports he)

end Scale

end HeaderFlow
