import HeaderFlow.Proofs.Network.Limits
import HeaderFlow.Proofs.Space.Widening

/-!
# Widening early or late

A network can be widened at any time, and afterwards it takes wider headers only. **It makes no
difference when this is done**: if the changes that follow are widened too, then they succeed as
before, and the network is in the end the one that is obtained by widening last of all.

The run that widens late and the run that widens early are compared by `Comparison.widening`, under
which a header of the first stands for its widened form in the second. Up to the moment at which the
second run widens, both are the same run, and nothing is widened in the comparison; from then on the
comparison widens; and when the first run has widened too, nothing is left to be widened, so that
the networks are the same. Each of the three moments is a recasting (`recasts_widening`).

## What it rests on

* Every operation on patterns and spaces commutes with widening, so what one run computes stands for
  what the other one computes. This is where all the work on headers is done; for the engine it is
  one casting among others.
* Both runs are timed by the same clock and have the same limits, so twins within the same limits
  differ in nothing but the latest change (`AtRest.eq_of_limited`).
* Widening again to a length that is there already does nothing, and widening in two steps is
  widening to the greater length (`Condition.enlarge_enlarge`).

The changes have to be `Coherent`: a space whose patterns have other lengths than it says could not
be widened to what its length promises.
-/

namespace HeaderFlow

variable {n m : Nat} {net net' : Network} {ν : Naming} {s : Settings} {clock : Clock}
  {mu : Mutation} {ms₁ ms₂ : List Mutation}

/-! ### Widened changes -/

namespace Mutation

/-- The change with wider headers: **what is added is wild where headers are matched and written,
and not overwritten**. -/
def enlarge (bytes : Nat) : Mutation → Mutation
  | .addRule r => .addRule { r with
      accepts := r.accepts.enlarge bytes
      mask := r.mask.map fun k ↦ k.enlargeWith bytes .zero
      value := r.value.map fun v ↦ v.enlarge bytes }
  | .addSource space ports => .addSource (space.enlarge bytes) ports
  | .addSourcePattern p ports => .addSourcePattern (p.enlarge bytes) ports
  | .addProbe r => .addProbe { r with
      filter := r.filter.enlarge bytes
      test := r.test.enlarge bytes
      accepts := r.accepts.map fun p ↦ p.enlarge bytes }
  | mu => mu

/-- The patterns of each space that comes with the change have the length of the space. -/
def Coherent : Mutation → Prop
  | .addSource space _ => space.Uniform
  | .addProbe r => r.filter.Spaces Space.Uniform ∧ r.test.Spaces Space.Uniform
  | _ => True

end Mutation

/-! ### What stands for what -/

namespace Comparison

/-- The second network is the first one, with headers of `n` bytes, widened to `m`. -/
def widening (n m : Nat) : Comparison n (max n m) := (Casting.widening n m).entire False .same

/-- Where nothing has to be widened, everything stands for itself. -/
theorem literal_widening (n : Nat) : (widening n 0).Literal where
  exact := trivial
  pattern _ _ hp := hp.eq.trans (Pattern.enlarge_of_le (Nat.zero_le _))
  mask _ _ hk := hk.eq.trans (Pattern.enlargeWith_of_le (Nat.zero_le _))
  space _ _ hs := hs.eq.trans (Space.enlarge_of_le (Nat.zero_le _))
  asked _ _ ht := ht.eq.trans (Space.enlarge_of_le (Nat.zero_le _))

/-- **Within the same limits, twins differ in nothing but the latest change.** -/
theorem AtRest.eq_of_limited {T : Comparison n m} (hT : T.AtRest ν net net') (hl : T.Literal)
    (hnm : m = n) (htiming : T.timing = .same) (hnet : net.Limited s) (hnet' : net'.Limited s) :
    net' = { net with lastEvent := net'.lastEvent } := by
  subst hnm
  obtain ⟨hdepth, hvisits⟩ := hT.spent hl.exact
  have hdepths : net'.budget.maxDepth = net.budget.maxDepth :=
    hnet'.maxDepth.trans hnet.maxDepth.symm
  have hvisit : net'.budget.maxVisits = net.budget.maxVisits :=
    hnet'.maxVisits.trans hnet.maxVisits.symm
  obtain ⟨htimeout, hclock, hchanges, hdeadline⟩ : Timing.same.Agrees net.budget net'.budget :=
    htiming ▸ hT.timed
  have hbudget : net'.budget = net.budget := by
    rw [Budget.mk.injEq]
    exact ⟨hdepths, hvisit, htimeout, hclock, hchanges, hdeadline, hdepth, hvisits⟩
  have hsettings : net'.settings = net.settings := hnet'.settings.trans hnet.settings.symm
  have hbytes : net.bytes = m := hT.bytes
  refine (hT.eq hl).trans ?_
  rw [hbudget, hsettings, ← hbytes]

end Comparison

namespace Recast

variable {k : Nat} {p : Pattern} {t : Space}

/-- A pattern that is long enough is widened to the greater length. -/
theorem upTo_pattern (hp : n ≤ p.bytes) : (upTo n k).pattern p = p.enlarge (max n k) := by
  rw [upTo]
  split
  · rename_i hk
    rw [Nat.max_eq_left hk, Pattern.enlarge_of_le hp]
    rfl
  · rw [Nat.max_eq_right (by omega)]
    rfl

/-- A mask is widened so that nothing more is overwritten. -/
theorem upTo_mask (hp : n ≤ p.bytes) : (upTo n k).mask p = p.enlargeWith (max n k) .zero := by
  rw [upTo]
  split
  · rename_i hk
    rw [Nat.max_eq_left hk, Pattern.enlargeWith_of_le hp]
    rfl
  · rw [Nat.max_eq_right (by omega)]
    rfl

/-- A space that is long enough is widened to the greater length. -/
theorem upTo_space (ht : n ≤ t.bytes) : (upTo n k).space t = t.enlarge (max n k) := by
  rw [upTo]
  split
  · rename_i hk
    rw [Nat.max_eq_left hk, Space.enlarge_of_le ht]
    rfl
  · rw [Nat.max_eq_right (by omega)]
    rfl

end Recast

/-- What is widened has one length. -/
theorem Space.uniform_enlarge {t : Space} (ht : t.Uniform) : (t.enlarge m).Uniform := by
  by_cases hle : m ≤ t.bytes
  · rwa [Space.enlarge_of_le hle]
  · exact (Space.Over.enlarge ⟨rfl, ht⟩ (Nat.le_of_not_le hle)).2

namespace Comparison

/-- **If the first network is widened to `a` bytes and the second one to `b`, what stood for each
other still does.** -/
theorem recasts_widening {a b c : Nat} (h : max (max n a) c = max (max n m) b) :
    (widening n m).Recasts (widening (max n a) c) (.upTo n a) (.upTo (max n m) b) := by
  -- widening to `m` and then to `b` is widening to `a` and then to `c`
  have hmax : max m (max (max n m) b) = max (max n a) c := by omega
  refine ⟨.rfl, rfl, id, rfl, rfl, rfl, rfl, rfl, ?pattern, ?mask, ?space, ?asked⟩
  case pattern =>
    intro p p' (hp : p.Widens n m p')
    rw [Recast.upTo_pattern hp.bytes.ge, Recast.upTo_pattern hp.bytes_eq.ge, hp.eq,
      Pattern.enlarge_enlarge, hmax, ← Pattern.enlarge_enlarge p (max n a)]
    exact Pattern.widens_enlarge (by rw [Pattern.bytes_enlarge, hp.bytes]; omega)
  case mask =>
    intro k k' (hk : k.MaskWidens n m k')
    have hk' : max n m ≤ k'.bytes := by rw [hk.eq, Pattern.bytes_enlargeWith, hk.bytes]
    rw [Recast.upTo_mask hk.bytes.ge, Recast.upTo_mask hk', hk.eq,
      Pattern.enlargeWith_enlargeWith, hmax, ← Pattern.enlargeWith_enlargeWith k (max n a)]
    exact ⟨by rw [Pattern.bytes_enlargeWith, hk.bytes]; omega, rfl⟩
  case space =>
    intro t t' (ht : t.Widens n m t')
    rw [Recast.upTo_space ht.bytes.ge, Recast.upTo_space ht.bytes_eq.ge, ht.eq,
      Space.enlarge_enlarge, hmax, ← Space.enlarge_enlarge t (max n a)]
    exact Space.widens_enlarge (ht.over_left.enlarge (Nat.le_max_left n a))
  case asked =>
    intro t t' (ht : t.AskWidens n m t')
    have hle := ht.le
    have hle' : max n m ≤ t'.bytes := by
      rw [ht.eq, Space.bytes_enlarge]
      omega
    rw [Recast.upTo_space hle, Recast.upTo_space hle', ht.eq, Space.enlarge_enlarge, hmax,
      ← Space.enlarge_enlarge t (max n a)]
    refine (show Space.AskWidens _ _ _ _ from ⟨Space.uniform_enlarge ht.uniform, ?_, rfl⟩)
    rw [Space.bytes_enlarge]
    omega

end Comparison

/-! ### Runs -/

/-- At every length the second network is the first one widened to at least `m` bytes. -/
def Scale.widening (m : Nat) : Scale fun n ↦ max n m where
  rung n := .widening n m
  recasts n k := Comparison.recasts_widening (by omega)
  max_eq n k := by omega
  events _ h := h.elim

/-- Widening twice is widening to the greater length. -/
theorem Condition.enlarge_enlarge (q : Condition) (a b : Nat) :
    (q.enlarge a).enlarge b = q.enlarge (max a b) := by
  induction q with
  | and p q ihp ihq => rw [enlarge, enlarge, enlarge, ihp, ihq]
  | or p q ihp ihq => rw [enlarge, enlarge, enlarge, ihp, ihq]
  | not q ih => rw [enlarge, enlarge, enlarge, ih]
  | header t => exact congrArg Condition.header (Space.enlarge_enlarge t a b)
  | always => rfl
  | never => rfl
  | path => rfl

/-- A condition stands for the widened one. -/
theorem Condition.alike_enlarge {q : Condition} (hq : q.Spaces Space.Uniform) (n m : Nat) :
    (q.enlarge n).Alike (Space.AskWidens n m) ((q.enlarge m).enlarge (max n m)) := by
  rw [enlarge_enlarge]
  induction q with
  | and a b iha ihb => exact .and (iha hq.1) (ihb hq.2)
  | or a b iha ihb => exact .or (iha hq.1) (ihb hq.2)
  | not a ih => exact .not (ih hq)
  | header t =>
    refine .header ⟨Space.uniform_enlarge hq, ?_, ?_⟩
    · rw [Space.bytes_enlarge]
      omega
    · rw [Space.enlarge_enlarge]
      exact congrArg t.enlarge (by omega)
  | always => exact .always
  | never => exact .never
  | path ps => exact .path ps

/-- **Every change goes with the widened one.** -/
theorem Scale.goes_widening (hmu : mu.Coherent) (n m : Nat) :
    (Scale.widening m).Goes n mu (mu.enlarge m) := by
  have hpattern : ∀ p : Pattern, (Comparison.widening n m).Fits p (p.enlarge m) := fun p hp ↦
    ⟨Pattern.widens_enlarge hp, by rw [Pattern.bytes_enlarge, hp]⟩
  have hmask : ∀ k : Pattern, (Comparison.widening n m).MaskFits k (k.enlargeWith m .zero) :=
    fun k hk ↦
    ⟨⟨hk, rfl⟩, by rw [Pattern.bytes_enlargeWith, hk]⟩
  have hpatterns : ∀ o : Option Pattern,
      Option.Rel (Comparison.widening n m).Fits o (o.map fun p ↦ p.enlarge m) := by
    rintro (_ | p)
    · exact .none
    · exact .some (hpattern p)
  have hmasks : ∀ o : Option Pattern,
      Option.Rel (Comparison.widening n m).MaskFits o (o.map fun k ↦ k.enlargeWith m .zero) := by
    rintro (_ | k)
    · exact .none
    · exact .some (hmask k)
  cases mu with
  | addTable id ports => exact .change (.addTable id ports)
  | removeTable id => exact .change (.removeTable id)
  | addRule r => exact .change (.addRule ⟨rfl, rfl, rfl, rfl, hpattern _, hmasks _, hpatterns _⟩)
  | removeRule id => exact .change (.removeRule id)
  | addLink l => exact .change (.addLink l)
  | removeLink l => exact .change (.removeLink l)
  | addSource space ports =>
    refine .change (.addSource ports fun hbytes ↦ ?_)
    have hwidens := Space.widens_enlarge (m := m) ⟨hbytes, hmu⟩
    exact ⟨hwidens, hwidens.bytes_eq⟩
  | addSourcePattern p ports => exact .change (.addSourcePattern ports (hpattern p))
  | removeSource id => exact .change (.removeSource id)
  | addProbe r =>
    exact .change
      (.addProbe ⟨rfl, Condition.alike_enlarge hmu.1 n m, Condition.alike_enlarge hmu.2 n m, rfl,
        hpatterns _⟩)
  | removeProbe id => exact .change (.removeProbe id)
  | restartProbe id => exact .change (.restartProbe id)
  | expand k => exact .expand k
  | audit table => exact .change (.audit table)

/-- Widening to no bytes at all changes nothing. -/
theorem Condition.enlarge_zero (q : Condition) : q.enlarge 0 = q := by
  rw [← recast_enlarge, show (fun s : Space ↦ s.enlarge 0) = id from funext fun s ↦
    Space.enlarge_of_le (Nat.zero_le _), recast_id]

/-- Widening a change to no bytes at all changes nothing. -/
theorem Mutation.enlarge_zero (mu : Mutation) : mu.enlarge 0 = mu := by
  have hpattern : ∀ p : Pattern, p.enlarge 0 = p := fun p ↦ Pattern.enlarge_of_le (Nat.zero_le _)
  have hmask : ∀ k : Pattern, k.enlargeWith 0 .zero = k := fun k ↦
    Pattern.enlargeWith_of_le (Nat.zero_le _)
  have hspace : ∀ t : Space, t.enlarge 0 = t := fun t ↦ Space.enlarge_of_le (Nat.zero_le _)
  cases mu <;> simp [enlarge, hpattern, hmask, hspace, Condition.enlarge_zero]

namespace Network

/-- The answers are the same, unless they are lengths of headers. -/
def SameAnswer (answer answer' : Except NetworkError Reply) : Prop :=
  answer' = answer ∨ ∃ k k', answer = .ok (.length k) ∧ answer' = .ok (.length k')

/-- Widening a network to no bytes at all changes nothing. -/
theorem expand_zero (net : Network) : (net.expand 0).network = net := by
  rw [expand, if_pos (Nat.zero_le _)]
  rfl

/-- Widening succeeds, if only to say how long headers are. -/
theorem completes_expand (net : Network) (m : Nat) : net.Completes [.expand m] := by
  refine completes_cons.2 ⟨⟨.length (max net.bytes m), ?_⟩, completes_nil _⟩
  rw [apply, expand_eq]
  rfl

/-- **A run from a network with some headers is tracked by the same run from the network with wider
ones.** -/
theorem run_widening (hcoherent : ∀ mu ∈ ms₂, mu.Coherent)
    (hT : (Comparison.widening n m).AtRest ν net net') (hok : net.Completes ms₂) :
    ∃ n' ν', (Comparison.widening n' m).AtRest ν' (net.after ms₂)
      (net'.after (ms₂.map (Mutation.enlarge m))) ∧
    List.Forall₂ SameAnswer (net.answers ms₂) (net'.answers (ms₂.map (Mutation.enlarge m))) ∧
    net'.Completes (ms₂.map (Mutation.enlarge m)) ∧
    (net'.told (ms₂.map (Mutation.enlarge m))).map (List.map Report.bare) =
      (net.told ms₂).map (List.map Report.bare) := by
  have hgoes : (Scale.widening m).GoesAlong ms₂ (ms₂.map (Mutation.enlarge m)) := by
    rw [Scale.GoesAlong, List.forall₂_map_right_iff, List.forall₂_same]
    exact fun mu hmu k ↦ Scale.goes_widening (hcoherent mu hmu) k m
  obtain ⟨n', ν', hT', hanswers, htold, -⟩ := (Scale.widening m).run (fun _ ↦ by rintro ⟨⟩)
    (fun _ _ ↦ ⟨fun hno ↦ hno, rfl, Nat.le_refl _⟩) (fun _ _ _ ↦ trivial) (fun _ _ ↦ trivial)
      (fun _ _ ↦ trivial) (fun _ ↦ trivial) hT hgoes hok
  refine ⟨n', ν', hT', hanswers.imp ?_, ?_, htold⟩
  · rintro answer answer' ⟨k, reply, reply', rfl, rfl, hreply⟩
    cases hreply with
    | done => exact .inl rfl
    | node hid => exact .inl (by rw [hid trivial])
    | length => exact .inr ⟨_, _, rfl, rfl⟩
    | anomalies => exact .inl rfl
  · refine forall_mem_of_forall₂ hanswers (P := fun _ ↦ True) ?_ fun _ _ ↦ trivial
    rintro answer answer' ⟨k, reply, reply', rfl, rfl, hreply⟩ -
    exact ⟨reply', rfl⟩

/-- **Widening early or late makes no difference**: the network is the same but for its latest
change, and so are the answers and the reports in between. -/
theorem after_widened (hcoherent : ∀ mu ∈ ms₁ ++ ms₂, mu.Coherent)
    (hok : (new n s clock).Completes (ms₁ ++ ms₂)) :
    (new n s clock).Completes (ms₁ ++ ms₂ ++ [.expand m]) ∧
    (new n s clock).Completes (ms₁ ++ [.expand m] ++ ms₂.map (Mutation.enlarge m)) ∧
    (∃ event, (new n s clock).after (ms₁ ++ [.expand m] ++ ms₂.map (Mutation.enlarge m)) =
      { (new n s clock).after (ms₁ ++ ms₂ ++ [.expand m]) with lastEvent := event }) ∧
    List.Forall₂ SameAnswer (((new n s clock).after ms₁).answers ms₂)
      (((new n s clock).after (ms₁ ++ [.expand m])).answers (ms₂.map (Mutation.enlarge m))) ∧
    (((new n s clock).after (ms₁ ++ [.expand m])).told (ms₂.map (Mutation.enlarge m))).map
      (List.map Report.bare) =
      (((new n s clock).after ms₁).told ms₂).map (List.map Report.bare) := by
  obtain ⟨hcoherent₁, hcoherent₂⟩ := List.forall_mem_append.1 hcoherent
  obtain ⟨hok₁, hok₂⟩ := completes_append.1 hok
  have hstart : new (max n 0) s clock = new n s clock := by rw [Nat.max_zero]
  have hsame : ms₁.map (Mutation.enlarge 0) = ms₁ := by
    rw [show Mutation.enlarge 0 = id from funext Mutation.enlarge_zero, List.map_id]
  have hexpand : ∀ net : Network, net.after [.expand m] = (net.expand m).network := fun _ ↦ rfl
  -- up to the moment at which the second run widens, there is one run
  have halike : s.Alike s := ⟨rfl, rfl, rfl, rfl⟩
  have hT₀ := (Comparison.widening n 0).atRest_new clock clock halike (Nat.le_refl _) (by omega)
    ⟨rfl, rfl, rfl, rfl⟩ rfl
  obtain ⟨n₁, ν₁, hT₁, -⟩ := run_widening hcoherent₁ hT₀ hok₁
  rw [hsame, hstart] at hT₁
  -- the second run widens, and both go on
  have hwidens₂ := Comparison.recasts_widening (n := n₁) (m := 0) (a := 0) (b := m) (c := m) rfl
  have hT₂ := hT₁.expand rfl rfl hwidens₂ False.elim
  rw [expand_zero] at hT₂
  obtain ⟨n₂, ν₂, hT₃, hanswers, hdone, htold⟩ := run_widening hcoherent₂ hT₂ hok₂
  -- the first run widens as well, and nothing is left to be widened
  have hwidens₄ := Comparison.recasts_widening (n := n₂) (m := m) (a := m) (b := 0) (c := 0) rfl
  have hT₄ := hT₃.expand rfl rfl hwidens₄ False.elim
  rw [expand_zero] at hT₄
  have hlate : (new n s clock).Completes (ms₁ ++ ms₂ ++ [.expand m]) :=
    completes_append.2 ⟨hok, completes_expand _ m⟩
  have hearly : (new n s clock).Completes (ms₁ ++ [.expand m] ++ ms₂.map (Mutation.enlarge m)) := by
    rw [completes_append, completes_append, after_append, hexpand]
    exact ⟨⟨hok₁, completes_expand _ m⟩, hdone⟩
  have hO := orderly_after (new_orderly n s clock) hlate
  have hO' := orderly_after (new_orderly n s clock) hearly
  refine ⟨hlate, hearly, ?_⟩
  rw [after_append, after_append, hexpand] at hO hO'
  rw [after_append, after_append, after_append _ _ [.expand m], after_append, hexpand, hexpand]
  exact ⟨⟨_, hT₄.eq_of_limited (Comparison.literal_widening _)
    (Nat.max_zero _) rfl hO.toLimited hO'.toLimited⟩, hanswers, htold⟩

/-- A table whose rule overwrites the first bit of every header. -/
def marker : List Mutation :=
  [.addTable 1 [11, 12], .addLink ⟨1, 11⟩, .addLink ⟨12, 2⟩,
    .addRule { table := 1, index := 2, inPorts := [], outPorts := [12], accepts := .allWild 1,
               mask := some ((Pattern.fill 1 .zero).put 0 .one), value := some (.fill 1 .one) }]

/-- All headers but one are sent through the table to a probe, and some of them are then dropped. -/
def stream : List Mutation :=
  [.addSource ⟨1, [.mk (.allWild 1) [.plain (.fill 1 .one)]]⟩ [1],
    .addProbe { mode := .universal, filter := .always, ports := [2]
                test := .header ⟨1, [.mk (.allWild 1) [.plain (.fill 1 .zero)]]⟩ },
    .addRule { table := 1, index := 1, inPorts := [], outPorts := [],
               accepts := (Pattern.allWild 1).put 3 .one }]

/-- The table widened before headers are sent through it is the table widened after that. -/
theorem after_widened_stream : (new 1 .default).Completes (marker ++ stream) ∧
    (new 1 .default).Completes (marker ++ [.expand 2] ++ stream.map (Mutation.enlarge 2)) ∧
    ∃ event, (new 1 .default).after (marker ++ [.expand 2] ++ stream.map (Mutation.enlarge 2)) =
      { (new 1 .default).after (marker ++ stream ++ [.expand 2]) with lastEvent := event } := by
  have hcoherent : ∀ mu ∈ marker ++ stream, mu.Coherent := by
    simp [marker, stream,
      Mutation.Coherent, Condition.Spaces, Space.Uniform, Region.plain, Pattern.fill]
  have hcompletes : (new 1 .default).Completes (marker ++ stream) := by decide +kernel
  obtain ⟨-, hearly, hsame, -⟩ := after_widened (m := 2) hcoherent hcompletes
  exact ⟨hcompletes, hearly, hsame⟩

end Network

end HeaderFlow
