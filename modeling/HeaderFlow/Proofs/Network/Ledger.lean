import HeaderFlow.Proofs.Network.Forest
import HeaderFlow.Proofs.Space.NormalForm
import HeaderFlow.Proofs.Space.Overwrite

/-!
# What flows owe

In a network at rest every flow has what its node lets through of what arrived, every flow that came
by a pipe has what the pipe carries of what was sent, and every pipe has been used. While a change
is carried out some of this is not true yet. A *debt* is one such place, and `Sound` takes the set
of debts as a parameter: **it says everything about the flows that is not owed**. Each function of
propagation is then described by the debts that it pays and those that it incurs, and a network at
rest is one without debts.

A node that overwrites headers is held to one direction only, and only where its mask is concrete
and holes are shallow. This condition is part of `Fits`, so that rules without it do no harm to the
statements about others.

## Five debts

* `stale h`: what leaves the flow `h` was not computed from what arrived, so a header may be missing
  or too many.
* `excess h x`: the header `x` leaves the flow and should not. There is one such debt for each
  header, because a rule that is added takes known headers from a flow, and no others.
* `loose c`: what arrived at the flow `c` was not computed from what was sent.
* `surplus c x`: the header `x` arrived at it and was not sent.
* `pending h fwd`: the flow `h` was not sent down the pipe `fwd`.

Debts of flows that are gone are void (`Sound.void`). Paying is showing: `Sound.pay` takes what a
debt was about and removes the debt.
-/

namespace HeaderFlow

open Region

/-- Something that is not true of the flows yet. -/
inductive Debt where
  /-- What leaves the flow was not computed from what arrived. -/
  | stale (flow : Handle)
  /-- The header leaves the flow and should not. -/
  | excess (flow : Handle) (header : Nat → Bool)
  /-- What arrived was not computed from what was sent. -/
  | loose (flow : Handle)
  /-- The header arrived and was not sent. -/
  | surplus (flow : Handle) (header : Nat → Bool)
  /-- The flow was not sent down the pipe. -/
  | pending (flow pipe : Handle)

/-- The flow that owes. -/
def Debt.flow : Debt → Handle
  | stale h | excess h _ | loose h | surplus h _ | pending h _ => h

namespace Flow

/-- The header leaves the flow. -/
def Sends (f : Flow) (x : Nat → Bool) : Prop := ∃ s, f.processed = some s ∧ s.Contains x

/-- What came from a flow does not matter to what it sends. -/
theorem Alike.sends {f g : Flow} {x : Nat → Bool} (h : f.Alike g) : g.Sends x ↔ f.Sends x := by
  rw [Sends, Sends, h.processed]

end Flow

variable {L : Layout} {F F' : Arena Flow} {O : Set Handle} {D D' : Set Debt} {h c : Handle}
  {f f' g : Flow} {w : Wire}

/-- What leaves the flow is what its node lets through of what arrived. -/
structure Fits (L : Layout) (D : Set Debt) (h : Handle) (f : Flow) : Prop where
  lower : f.looped = false → .stale h ∉ D →
    (∀ w, L.overwrite? f.node = some w → w.mask.Concrete ∧ heightList f.input.regions ≤ 2) →
    ∀ x y, f.input.Contains x → ¬ L.Taken f.node f.port x → L.Turns f.node x y → f.Sends y
  upper : .stale h ∉ D → L.overwrite? f.node = none → ∀ x, f.Sends x →
    f.input.Contains x ∧ ¬ L.Taken f.node f.port x ∨ .excess h x ∈ D
  looped : f.looped = true → f.processed = none

/-- What arrived at `g`, which came from `f`, is what the wire carries of what `f` sends. -/
structure Passes (D : Set Debt) (w : Wire) (c : Handle) (g f : Flow) : Prop where
  alive : .loose c ∉ D → f.processed ≠ none
  lower : .loose c ∉ D → ∀ x, f.Sends x → w.pattern.Matches x → g.input.Contains x
  upper : .loose c ∉ D → ∀ x, g.input.Contains x →
    w.pattern.Matches x ∧ (f.Sends x ∨ .surplus c x ∈ D)

/-- What is owed nothing is just what the wire carries. -/
theorem Passes.input_iff (hp : Passes ∅ w c g f) (x : Nat → Bool) :
    g.input.Contains x ↔ w.pattern.Matches x ∧ f.Sends x := by
  have hpaid : Debt.loose c ∉ (∅ : Set Debt) := Set.notMem_empty _
  refine ⟨fun hx ↦ ?_, fun ⟨hw, hx⟩ ↦ hp.lower hpaid x hx hw⟩
  obtain ⟨hw, hx⟩ := hp.upper hpaid x hx
  exact ⟨hw, hx.resolve_right (Set.notMem_empty _)⟩

/-- The flow was sent down every pipe that carries something of it. -/
def Sent (L : Layout) (F : Arena Flow) (D : Set Debt) (h : Handle) (f : Flow) : Prop :=
  ∀ fwd w, L.Runs fwd w → w.sender = f.node → f.Leaves w.outPort → .pending h fwd ∉ D →
    (∃ c g, F.find? c = some g ∧ g.parent = some h ∧ g.pipe = some fwd) ∨
      ∀ x, f.Sends x → ¬ w.pattern.Matches x

/-- The spaces of a flow are trim, their holes are nested no deeper than at its source, and what
leaves it is in normal form if nothing is overwritten. -/
structure Shaped (L : Layout) (F : Arena Flow) (f : Flow) : Prop where
  input : f.parent ≠ none → ∃ n, f.input.Trim n
  processed : f.parent ≠ none → L.overwrite? f.node = none → ∀ s, f.processed = some s →
    ∃ n, s.Trim n ∧ s.Normalized
  height : ∀ r, F.find? f.source = some r → r.parent = none →
    heightList f.input.regions ≤ max 2 (heightList r.input.regions) ∧
      ∀ s, f.processed = some s → heightList s.regions ≤ max 2 (heightList r.input.regions)

/-- Heights are compared with those of roots, so these have to stay as high as they were. -/
theorem Shaped.congr (hs : Shaped L F f)
    (hroot : ∀ r', F'.find? f.source = some r' → r'.parent = none →
      ∃ r, F.find? f.source = some r ∧ r.parent = none ∧ r.input = r'.input) : Shaped L F' f := by
  refine ⟨hs.input, hs.processed, fun r' hr' hrp ↦ ?_⟩
  obtain ⟨r, hr, hp, hinput⟩ := hroot r' hr' hrp
  exact hinput ▸ hs.height r hr hp

/-- What went down a pipe is known by its way. -/
theorem Sent.congr (hs : Sent L F D h f)
    (hnew : ∀ c g, F.find? c = some g → ∃ g', F'.find? c = some g' ∧ g'.way = g.way) :
    Sent L F' D h f := by
  intro fwd w hw hsender hleaves hp
  refine (hs fwd w hw hsender hleaves hp).imp_left ?_
  rintro ⟨c, g, hc, hparent, hpipe⟩
  obtain ⟨g', hg', hway⟩ := hnew c g hc
  exact ⟨c, g', hg', (Flow.parent_eq hway).trans hparent, (Flow.pipe_eq hway).trans hpipe⟩

/-- Everything is as it should be with the flows, up to what they owe. -/
structure Sound (L : Layout) (F : Arena Flow) (D : Set Debt) : Prop where
  fits : ∀ h f, F.find? h = some f → Fits L D h f
  passes : ∀ c g h f fwd w, F.find? c = some g → g.parent = some h → F.find? h = some f →
    g.pipe = some fwd → L.Runs fwd w → Passes D w c g f
  sent : ∀ h f, F.find? h = some f → Sent L F D h f
  shaped : ∀ h f, F.find? h = some f → Shaped L F f
  source : ∀ h f, F.find? h = some f → f.parent = none →
    f.processed = some f.input ∧ f.looped = false

/-! ### Debts of a flow -/

/-- More may be owed. -/
theorem Fits.mono (hf : Fits L D h f) (hstale : .stale h ∈ D → .stale h ∈ D')
    (hexcess : ∀ x, .excess h x ∈ D → .excess h x ∈ D') : Fits L D' h f where
  lower hl hs := hf.lower hl fun hmem ↦ hs (hstale hmem)
  upper hs hw x hx := (hf.upper (fun hmem ↦ hs (hstale hmem)) hw x hx).imp_right (hexcess x)
  looped := hf.looped

theorem Passes.mono (hp : Passes D w c g f) (hloose : .loose c ∈ D → .loose c ∈ D')
    (hsurplus : ∀ x, .surplus c x ∈ D → .surplus c x ∈ D') : Passes D' w c g f where
  alive hl := hp.alive fun hmem ↦ hl (hloose hmem)
  lower hl := hp.lower fun hmem ↦ hl (hloose hmem)
  upper hl x hx := by
    obtain ⟨hm, hs⟩ := hp.upper (fun hmem ↦ hl (hloose hmem)) x hx
    exact ⟨hm, hs.imp_right (hsurplus x)⟩

/-- What is loose is held to nothing but surplus headers. -/
theorem Passes.of_loose (hl : .loose c ∈ D) : Passes D w c g f :=
  ⟨fun hn ↦ absurd hl hn, fun hn ↦ absurd hl hn, fun hn ↦ absurd hl hn⟩

/-- Only what arrived and what was sent matters. -/
theorem Passes.congr {g' : Flow} (hp : Passes D w c g f) (hg : g'.input = g.input)
    (hf : f'.processed = f.processed) : Passes D w c g' f' := by
  constructor
  · rw [hf]
    exact hp.alive
  · intro hl x hx hm
    rw [hg]
    refine hp.lower hl x ?_ hm
    rwa [Flow.Sends, hf] at hx
  · intro hl x hx
    rw [hg] at hx
    rw [Flow.Sends, hf]
    exact hp.upper hl x hx

/-- More may be pending. -/
theorem Sent.mono (hs : Sent L F D h f) (hD : ∀ fwd, .pending h fwd ∈ D → .pending h fwd ∈ D') :
    Sent L F D' h f := fun fwd w hw hn hl hp ↦
  hs fwd w hw hn hl fun hmem ↦ hp (hD fwd hmem)

/-- A flow without headers has nothing to send. -/
theorem Sent.of_not_sends (hf : ∀ x, ¬ f.Sends x) : Sent L F D h f := fun _ _ _ _ _ _ ↦
  .inr fun x hx ↦ absurd hx (hf x)

/-- With all pipes pending nothing is to be shown. -/
theorem Sent.of_pending (hD : ∀ fwd, .pending h fwd ∈ D) : Sent L F D h f :=
  fun fwd _ _ _ _ hp ↦ absurd (hD fwd) hp

namespace Sound

/-- With more debts less is said. -/
theorem mono (hs : Sound L F D) (hD : D ⊆ D') : Sound L F D' where
  fits h f hf := (hs.fits h f hf).mono (fun hmem ↦ hD hmem) fun _ hmem ↦ hD hmem
  passes c g h f fwd w hc hp hf hpipe hw :=
    (hs.passes c g h f fwd w hc hp hf hpipe hw).mono (fun hmem ↦ hD hmem) fun _ hmem ↦ hD hmem
  sent h f hf := (hs.sent h f hf).mono fun _ hmem ↦ hD hmem
  shaped := hs.shaped
  source := hs.source

/-- **A debt is paid by showing what it was about.** Debts of flows that do not live are void. -/
theorem pay (hs : Sound L F D) (hD : ∀ d ∈ D, d.flow ≠ h → d ∈ D')
    (hfits : ∀ f, F.find? h = some f → Fits L D' h f)
    (hin : ∀ f p k fwd w, F.find? h = some f → f.parent = some p → F.find? p = some k →
      f.pipe = some fwd → L.Runs fwd w → Passes D' w h f k)
    (hsent : ∀ f, F.find? h = some f → Sent L F D' h f) : Sound L F D' := by
  refine ⟨fun k f hf ↦ ?_, fun c g k f fwd w hc hp hf hpipe hw ↦ ?_, fun k f hf ↦ ?_, hs.shaped,
    hs.source⟩
  · by_cases hk : k = h
    · exact hk ▸ hfits f (hk ▸ hf)
    · exact (hs.fits k f hf).mono (fun hmem ↦ hD _ hmem hk) fun _ hmem ↦ hD _ hmem hk
  · by_cases hk : c = h
    · subst hk
      exact hin g k f fwd w hc hp hf hpipe hw
    · exact (hs.passes c g k f fwd w hc hp hf hpipe hw).mono (fun hmem ↦ hD _ hmem hk)
        fun _ hmem ↦ hD _ hmem hk
  · by_cases hk : k = h
    · exact hk ▸ hsent f (hk ▸ hf)
    · exact (hs.sent k f hf).mono fun _ hmem ↦ hD _ hmem hk

/-- Pays for what leaves a flow. -/
theorem payFits (hs : Sound L F D)
    (hD : ∀ d ∈ D, d ≠ .stale h → (∀ x, d ≠ .excess h x) → d ∈ D')
    (hfits : ∀ f, F.find? h = some f → Fits L D' h f) : Sound L F D' := by
  refine hs.pay (h := h) (fun d hmem hne ↦ hD d hmem ?_ ?_) hfits
    (fun f p k fwd w hf hp hk hpipe hw ↦ (hs.passes h f p k fwd w hf hp hk hpipe hw).mono
      (fun hmem ↦ hD _ hmem (by simp) (by simp)) fun _ hmem ↦ hD _ hmem (by simp) (by simp))
    fun f hf ↦ (hs.sent h f hf).mono fun _ hmem ↦ hD _ hmem (by simp) (by simp)
  · rintro rfl
    exact hne rfl
  · rintro x rfl
    exact hne rfl

/-- Pays for the pipes of a flow. -/
theorem paySent (hs : Sound L F D) (hD : ∀ d ∈ D, (∀ fwd, d ≠ .pending h fwd) → d ∈ D')
    (hsent : ∀ f, F.find? h = some f → Sent L F D' h f) : Sound L F D' := by
  refine hs.pay (h := h) (fun d hmem hne ↦ hD d hmem ?_)
    (fun f hf ↦ (hs.fits h f hf).mono (fun hmem ↦ hD _ hmem (by simp))
      fun _ hmem ↦ hD _ hmem (by simp))
    (fun f p k fwd w hf hp hk hpipe hw ↦ (hs.passes h f p k fwd w hf hp hk hpipe hw).mono
      (fun hmem ↦ hD _ hmem (by simp)) fun _ hmem ↦ hD _ hmem (by simp)) hsent
  rintro fwd rfl
  exact hne rfl

/-- Pays for one pipe of a flow. -/
theorem settle {fwd : Handle} (hs : Sound L F (D ∪ {.pending h fwd}))
    (hwhy : ∀ f w, F.find? h = some f → L.Runs fwd w → f.Leaves w.outPort →
      (∃ c g, F.find? c = some g ∧ g.parent = some h ∧ g.pipe = some fwd) ∨
        ∀ x, f.Sends x → ¬ w.pattern.Matches x) : Sound L F D := by
  refine hs.paySent (h := h) (fun d hmem hne ↦ hmem.resolve_right (hne fwd)) ?_
  intro f hf fwd' w hw hsender hleaves hp
  by_cases hfwd : fwd' = fwd
  · subst hfwd
    exact hwhy f w hf hw hleaves
  · exact hs.sent h f hf fwd' w hw hsender hleaves fun hmem ↦
      hmem.elim hp fun he ↦ hfwd (Debt.pending.inj he).2

/-- Pays for what arrived at a flow. -/
theorem payPasses (hs : Sound L F D) (hD : ∀ d ∈ D, d ≠ .loose h → (∀ x, d ≠ .surplus h x) → d ∈ D')
    (hin : ∀ f p k fwd w, F.find? h = some f → f.parent = some p → F.find? p = some k →
      f.pipe = some fwd → L.Runs fwd w → Passes D' w h f k) : Sound L F D' := by
  refine hs.pay (h := h) (fun d hmem hne ↦ hD d hmem ?_ ?_)
    (fun f hf ↦ (hs.fits h f hf).mono (fun hmem ↦ hD _ hmem (by simp) (by simp))
      fun _ hmem ↦ hD _ hmem (by simp) (by simp)) hin
    fun f hf ↦ (hs.sent h f hf).mono fun _ hmem ↦ hD _ hmem (by simp) (by simp)
  · rintro rfl
    exact hne rfl
  · rintro x rfl
    exact hne rfl

/-- What a flow that does not live owes is void. -/
theorem void (hs : Sound L F D) (hD : ∀ d ∈ D, (∃ f, F.find? d.flow = some f) → d ∈ D') :
    Sound L F D' where
  fits h f hf := (hs.fits h f hf).mono (fun hmem ↦ hD _ hmem ⟨f, hf⟩) fun _ hmem ↦ hD _ hmem ⟨f, hf⟩
  passes c g h f fwd w hc hp hf hpipe hw :=
    (hs.passes c g h f fwd w hc hp hf hpipe hw).mono (fun hmem ↦ hD _ hmem ⟨g, hc⟩)
      fun _ hmem ↦ hD _ hmem ⟨g, hc⟩
  sent h f hf := (hs.sent h f hf).mono fun _ hmem ↦ hD _ hmem ⟨f, hf⟩
  shaped := hs.shaped
  source := hs.source

/-- So is a pipe that a flow cannot be sent down. -/
theorem voidPipes (hs : Sound L F D)
    (hD : ∀ d ∈ D, (∀ h fwd, d = .pending h fwd →
      ∃ f w, F.find? h = some f ∧ L.Runs fwd w ∧ w.sender = f.node) → d ∈ D') :
    Sound L F D' where
  fits h f hf := (hs.fits h f hf).mono (fun hmem ↦ hD _ hmem (by simp)) fun _ hmem ↦
    hD _ hmem (by simp)
  passes c g h f fwd w hc hp hf hpipe hw :=
    (hs.passes c g h f fwd w hc hp hf hpipe hw).mono (fun hmem ↦ hD _ hmem (by simp))
      fun _ hmem ↦ hD _ hmem (by simp)
  sent h f hf fwd w hw hsender hleaves hp := by
    refine hs.sent h f hf fwd w hw hsender hleaves fun hmem ↦ hp (hD _ hmem ?_)
    rintro _ _ ⟨⟩
    exact ⟨f, w, hf, hw, hsender⟩
  shaped := hs.shaped
  source := hs.source

end Sound

/-! ### Changing a flow -/

/-- **The flow at `h` may be replaced by another if that one is as it should be.** What it owed
before is forgotten, and what others owe stays. -/
theorem Replaces.sound (hr : Replaces F F' h f f') (hs : Sound L F D)
    (hroot : f.parent ≠ none) (hD : ∀ d ∈ D, d.flow ≠ h → d ∈ D') (hfits : Fits L D' h f')
    (hin : ∀ p k fwd w, f.parent = some p → F.find? p = some k → f.pipe = some fwd →
      L.Runs fwd w → Passes D' w h f' k)
    (hout : ∀ c g fwd w, F.find? c = some g → c ≠ h → g.parent = some h → g.pipe = some fwd →
      L.Runs fwd w → Passes D' w c g f')
    (hsent : Sent L F D' h f') (hshaped : Shaped L F f')
    (hself : f.parent ≠ some h) : Sound L F' D' := by
  have hnew : ∀ c g, F.find? c = some g → ∃ g',
      F'.find? c = some g' ∧ g'.way = g.way := fun c g hc ↦
    (hr.new hc).imp fun _ hg ↦ ⟨hg.1, hg.2.1⟩
  -- a root is never replaced, so the heights are compared with the same space as before
  have hroots : ∀ k r, F'.find? k = some r → r.parent = none →
      ∃ r', F.find? k = some r' ∧ r'.parent = none ∧ r'.input = r.input := by
    intro k r hk hp
    rcases hr.of_find? hk with ⟨rfl, rfl⟩ | ⟨-, hk⟩
    · exact absurd ((Flow.parent_eq hr.way).symm.trans hp) hroot
    · exact ⟨r, hk, hp, rfl⟩
  refine ⟨fun k l hl ↦ ?_, fun c g k l fwd w hc hp hl hpipe hw ↦ ?_, fun k l hl ↦ ?_,
    fun k l hl ↦ ?_, fun k l hl hp ↦ ?_⟩
  · rcases hr.of_find? hl with ⟨rfl, rfl⟩ | ⟨hk, hl⟩
    · exact hfits
    · exact (hs.fits k l hl).mono (fun hmem ↦ hD _ hmem hk) fun _ hmem ↦ hD _ hmem hk
  · rcases hr.of_find? hc with ⟨rfl, rfl⟩ | ⟨hch, hc⟩
    · rw [Flow.parent_eq hr.way] at hp
      rw [Flow.pipe_eq hr.way] at hpipe
      rw [hr.other k fun he ↦ hself (he ▸ hp)] at hl
      exact hin k l fwd w hp hl hpipe hw
    · rcases hr.of_find? hl with ⟨rfl, rfl⟩ | ⟨-, hl⟩
      · exact hout c g fwd w hc hch hp hpipe hw
      · exact (hs.passes c g k l fwd w hc hp hl hpipe hw).mono (fun hmem ↦ hD _ hmem hch)
          fun _ hmem ↦ hD _ hmem hch
  · rcases hr.of_find? hl with ⟨rfl, rfl⟩ | ⟨hk, hl⟩
    · exact hsent.congr hnew
    · exact ((hs.sent k l hl).mono fun _ hmem ↦ hD _ hmem hk).congr hnew
  · rcases hr.of_find? hl with ⟨rfl, rfl⟩ | ⟨-, hl⟩
    · exact hshaped.congr fun r ↦ hroots _ r
    · exact (hs.shaped k l hl).congr fun r ↦ hroots _ r
  · rcases hr.of_find? hl with ⟨rfl, rfl⟩ | ⟨-, hl⟩
    · exact absurd ((Flow.parent_eq hr.way).symm.trans hp) hroot
    · exact hs.source k l hl hp

/-- What came from a flow says nothing about its headers. -/
theorem Replaces.sound_of_alike (hr : Replaces F F' h f f') (hs : Sound L F D)
    (halike : f.Alike f') : Sound L F' D := by
  obtain ⟨cs, rfl⟩ := halike
  -- every flow of the new arena has the headers and the way of one of the old
  have hback : ∀ k l', F'.find? k = some l' → ∃ l, F.find? k = some l ∧ l.Alike l' := by
    intro k l' hl'
    rcases hr.of_find? hl' with ⟨rfl, rfl⟩ | ⟨-, hl⟩
    · exact ⟨f, hr.before, cs, rfl⟩
    · exact ⟨l', hl, .refl l'⟩
  refine ⟨fun k l' hl' ↦ ?_, fun c g' k l' fwd w hc hp hl' hpipe hw ↦ ?_, fun k l' hl' ↦ ?_,
    fun k l' hl' ↦ ?_, fun k l' hl' hp ↦ ?_⟩
  · obtain ⟨l, hl, _, rfl⟩ := hback k l' hl'
    exact ⟨(hs.fits k l hl).lower, (hs.fits k l hl).upper, (hs.fits k l hl).looped⟩
  · obtain ⟨g, hg, _, rfl⟩ := hback c g' hc
    obtain ⟨l, hl, _, rfl⟩ := hback k l' hl'
    exact (hs.passes c g k l fwd w hg hp hl hpipe hw).congr rfl rfl
  · obtain ⟨l, hl, _, rfl⟩ := hback k l' hl'
    exact (hs.sent k l hl).congr fun c g hc ↦ (hr.new hc).imp fun _ hg ↦ ⟨hg.1, hg.2.1⟩
  · obtain ⟨l, hl, _, rfl⟩ := hback k l' hl'
    refine Shaped.congr (F := F) ⟨(hs.shaped k l hl).input, (hs.shaped k l hl).processed,
      (hs.shaped k l hl).height⟩ fun r' hr' hrp ↦ ?_
    obtain ⟨r, hr, _, rfl⟩ := hback _ r' hr'
    exact ⟨r, hr, hrp, rfl⟩
  · obtain ⟨l, hl, _, rfl⟩ := hback k l' hl'
    exact hs.source k l hl hp

namespace Sound

/-- A new flow pays the debt of the one it came from, and is stale itself. -/
theorem insert {fwd : Handle} (hs : Sound L F (D ∪ {.pending h fwd})) (hvalid : F.Valid)
    (hparent : g.parent = some h) (hpipe : g.pipe = some fwd) (hf : F.find? h = some f)
    (hprocessed : g.processed = none) (hlooped : g.looped = false)
    (hin : ∀ w, L.Runs fwd w → Passes D w F.nextHandle g f) (hshaped : Shaped L F g)
    (hF : Forest L F O) : Sound L (F.insert g) (D ∪ {.stale F.nextHandle}) := by
  have hold : ∀ k l, (F.insert g).find? k = some l →
      k = F.nextHandle ∧ l = g ∨ k ≠ F.nextHandle ∧ F.find? k = some l := fun _ _ ↦
    Arena.of_find?_insert hvalid
  have hself : (F.insert g).find? F.nextHandle = some g := Arena.find?_insert_self hvalid
  -- Nothing has been computed at the new flow, so nothing leaves it.
  have hnone : ∀ x, ¬ g.Sends x := by
    rintro x ⟨s, hp, -⟩
    exact absurd (hprocessed.symm.trans hp) (by simp)
  have hkeep : ∀ {k l}, F.find? k = some l → (F.insert g).find? k = some l := fun hl ↦
    Arena.find?_insert_of_some hvalid hl
  have hroots : ∀ k r, (F.insert g).find? k = some r → r.parent = none →
      ∃ r', F.find? k = some r' ∧ r'.parent = none ∧ r'.input = r.input := by
    intro k r hk hp
    rcases hold k r hk with ⟨rfl, rfl⟩ | ⟨-, hk⟩
    · exact absurd (hparent.symm.trans hp) (by simp)
    · exact ⟨r, hk, hp, rfl⟩
  refine ⟨fun k l hl ↦ ?_, fun k l p q fwd' w hl hp hq hpipe' hw ↦ ?_, fun k l hl ↦ ?_,
    fun k l hl ↦ ?_, fun k l hl hp ↦ ?_⟩
  · rcases hold k l hl with ⟨rfl, rfl⟩ | ⟨-, hl⟩
    · exact ⟨fun _ hn ↦ absurd (.inr rfl) hn, fun hn ↦ absurd (.inr rfl) hn,
        fun hn ↦ absurd (hlooped.symm.trans hn) (by simp)⟩
    · exact (hs.fits k l hl).mono (fun hmem ↦ .inl (by simpa using hmem))
        fun x hmem ↦ .inl (by simpa using hmem)
  · have hparents : ∀ {l : Flow}, F.find? p = some l → q = l := fun hl ↦
      Option.some.inj (hq.symm.trans (hkeep hl))
    rcases hold k l hl with ⟨rfl, rfl⟩ | ⟨-, hl⟩
    · rw [hparent] at hp
      rw [hpipe] at hpipe'
      obtain rfl := Option.some.inj hp
      obtain rfl := Option.some.inj hpipe'
      rw [hparents hf]
      -- The new flow itself came by the pipe that was pending.
      exact (hin w hw).mono .inl fun _ ↦ .inl
    · obtain ⟨l', hl'⟩ := hF.parent_live hl hp
      rw [hparents hl']
      exact (hs.passes k l p l' fwd' w hl hp hl' hpipe' hw).mono
        (fun hmem ↦ .inl (by simpa using hmem)) fun x hmem ↦ .inl (by simpa using hmem)
  · rcases hold k l hl with ⟨rfl, rfl⟩ | ⟨-, hl⟩
    · exact .of_not_sends hnone
    · intro fwd' w hw hn hleaves hp
      by_cases hk : k = h ∧ fwd' = fwd
      · exact .inl ⟨F.nextHandle, g, hself, hk.1 ▸ hparent, hk.2 ▸ hpipe⟩
      · refine (hs.sent k l hl).congr (fun c g hc ↦ ⟨g, hkeep hc, rfl⟩) fwd' w hw hn hleaves ?_
        rintro (hmem | hmem)
        · exact hp (.inl hmem)
        · exact hk (by simpa using hmem)
  · rcases hold k l hl with ⟨rfl, rfl⟩ | ⟨-, hl⟩
    · exact hshaped.congr fun r ↦ hroots _ r
    · exact (hs.shaped k l hl).congr fun r ↦ hroots _ r
  · rcases hold k l hl with ⟨rfl, rfl⟩ | ⟨-, hl⟩
    · exact absurd (hparent.symm.trans hp) (by simp)
    · exact hs.source k l hl hp

/-- When a flow goes, the one it came from owes it. -/
theorem lack (hs : Sound L F D) (hold : Arena.Lacks h F F') (hf : F.find? h = some f)
    (hleaf : ∀ c g, F.find? c = some g → g.parent ≠ some h) (hD : ∀ d ∈ D, d.flow ≠ h → d ∈ D')
    (howed : ∀ p fwd, f.parent = some p → f.pipe = some fwd → .pending p fwd ∈ D') :
    Sound L F' D' := by
  refine ⟨fun k l hl ↦ ?_, fun c g k l fwd w hc hp hl hpipe hw ↦ ?_, fun k l hl ↦ ?_,
    fun k l hl ↦ ?_, fun k l hl hp ↦ ?_⟩
  · obtain ⟨hk, hl⟩ := (hold k l).1 hl
    exact (hs.fits k l hl).mono (fun hmem ↦ hD _ hmem hk) fun _ hmem ↦ hD _ hmem hk
  · obtain ⟨hch, hc⟩ := (hold c g).1 hc
    obtain ⟨-, hl⟩ := (hold k l).1 hl
    exact (hs.passes c g k l fwd w hc hp hl hpipe hw).mono (fun hmem ↦ hD _ hmem hch)
      fun _ hmem ↦ hD _ hmem hch
  · obtain ⟨hk, hl⟩ := (hold k l).1 hl
    intro fwd w hw hn hleaves hp
    refine (hs.sent k l hl fwd w hw hn hleaves fun hmem ↦ hp (hD _ hmem hk)).imp_left ?_
    rintro ⟨c, g, hc, hcp, hpipe⟩
    refine ⟨c, g, (hold c g).2 ⟨?_, hc⟩, hcp, hpipe⟩
    rintro rfl
    rw [hf] at hc
    obtain rfl := Option.some.inj hc
    exact hp (howed k fwd hcp hpipe)
  · obtain ⟨-, hl⟩ := (hold k l).1 hl
    exact ⟨(hs.shaped k l hl).input, (hs.shaped k l hl).processed, fun r hr ↦
      (hs.shaped k l hl).height r ((hold _ r).1 hr).2⟩
  · exact hs.source k l ((hold k l).1 hl).2 hp

end Sound

end HeaderFlow
