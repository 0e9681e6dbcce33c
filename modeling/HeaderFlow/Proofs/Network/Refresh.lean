import HeaderFlow.Proofs.Network.Arrival

/-!
# Refreshing

A flow is refreshed because something is owed at it (`claim`): either all that leaves it, or only
headers that were lost. `Refreshes` says that **refreshing pays what was claimed, and leaves flows
nearer to the source alone**.

The two ways of going on are treated separately. A loss is pushed down (`inv_pushLoss`), where every
child may have received too much. Otherwise the children are renewed (`inv_renewChildren`), where
nothing is known about them any more, and the pipes that none of them came by are tried again.

## What becomes of the debts

A refresh with a loss keeps debts small. The flow has a header in excess, and after that its
children have the header in surplus (`inv_lose`), one for each header and child. Each child pays by
taking the loss out of what arrived there, which leaves a claim of the same kind on the child; so
the recursion is over claims.

A refresh without a loss makes everything below stale. All children are loose and all pipes are
pending (`inv_renewAll`). A child that is renewed pays for itself and for the pipe it came by; a
child whose pipe carries nothing any more goes (`inv_removeChild`); and the pipes that are left over
are sent down like those of a new flow.

## Rules that overwrite

At a node that overwrites it is of no use to know which headers were lost, because they leave as
others. So there the flow is stale as well (`claim`), and all that leaves it is computed anew.

## Nested visits

`inv_reconsider` is about one visit, with arriving and refreshing as parameters.
`refreshWithin_refreshes` is the induction on the room for visits; that a computation without room
never comes to its end is the base case.
-/

namespace HeaderFlow.Engine

open Region

variable {net net' : Network} {D D' : Set Debt} {d : Nat} {h c fwd : Handle} {f g : Flow} {n : Node}
  {w : Wire} {r : Rule} {L : Layout} {F F' : Arena Flow} {loss : Pattern} {processed left : Space}
  {arrive : NodeKey → Handle → Engine Unit} {refresh : Handle → Option Pattern → Engine Unit}

/-- What is owed by a flow before it is refreshed. At a node that overwrites headers, it is of no
use to know which were lost. -/
def claim (L : Layout) (key : NodeKey) (h : Handle) : Option Pattern → Set Debt
  | none => {.stale h}
  | some loss => {d | (∃ x, d = .excess h x ∧ loss.Matches x) ∨
      d = .stale h ∧ L.overwrite? key ≠ none}

/-- What leaves the flow may be computed anew from what arrived. At a probe nothing is compacted, so
this has to be in normal form already. -/
def Renewable (L : Layout) (f : Flow) : Prop :=
  (∃ n, L.core? f.node = some n ∧ n.IsRule) ∨ f.input.Normalized

/-- What is asked of a way of refreshing a flow. A loss is of headers that the flow does not have or
may not keep. -/
def Refreshes (refresh : Handle → Option Pattern → Engine Unit) : Prop :=
  ∀ net net' h f loss D d, Leads (refresh h loss) net () net' →
    Inv net ∅ (D ∪ claim net.layout f.node h loss) → net.flows.find? h = some f →
    (loss = none → Renewable net.layout f) →
    (∀ p, loss = some p → ∀ x, p.Matches x → f.input.Contains x →
      net.layout.Taken f.node f.port x) →
    Depth net.flows h d → Inv net' ∅ D ∧ Frame d net net'

/-- The handle names a flow that came from another, or did so once. -/
def Came (F : Arena Flow) (h c : Handle) : Prop := Names F (fun g ↦ g.parent = some h) c

/-- Which flow a flow came from never changes. -/
theorem Came.stable (hc : Came F h c) (hs : Stable F F') : Came F' h c :=
  Names.stable hc hs fun _ _ hway hp ↦ (Flow.parent_eq hway).trans hp

theorem Came.parent (hc : Came F h c) (hg : F.find? c = some g) : g.parent = some h :=
  Names.live hc hg

/-- What is among the children of a flow came from it. -/
theorem came_of_children (hI : Inv net ∅ D) (hf : net.flows.find? h = some f) :
    ∀ c ∈ f.children, Came net.flows h c := fun c hc ↦ .inr (hI.forest.children h f c hf hc)

/-! ### Pushing a loss down

The loss is cut down to what fits through the pipe of the child. If that is nothing, none of these
headers have arrived there, and the debt of the child is void (`inv_spareLoss`). Otherwise they are
taken out of what arrived. -/

/-- What a child lost may be taken out of what arrived there, which leaves a claim on the child. -/
theorem inv_cutInput {piped : Pattern} {input : Space}
    (hI : Inv net ∅ (D ∪ {d | ∃ x, d = .surplus c x ∧ loss.Matches x}))
    (hf : net.flows.find? h = some f) (hlost : ∀ x, loss.Matches x → ¬ f.Sends x)
    (hg : net.flows.find? c = some g) (hparent : g.parent = some h) (hpipe : g.pipe = some fwd)
    (hw : net.layout.Runs fwd w)
    (hboth : ∀ x, piped.Matches x ↔ w.pattern.Matches x ∧ loss.Matches x)
    (hinput : g.input.cut piped = .ok input) :
    Inv (withFlow net c fun f ↦ { f with input := input }) ∅
      (D ∪ claim net.layout g.node c (some piped)) := by
  have hleft : ∀ x, input.Contains x ↔ g.input.Contains x ∧ ¬ piped.Matches x := fun x ↦
    Space.contains_of_cut hinput
  obtain ⟨b, htrim⟩ := (hI.sound.shaped c g hg).input (by simp [hparent])
  obtain ⟨htrim', hheight⟩ := htrim.cut hinput
  have hfits := hI.sound.fits c g hg
  have hpasses := hI.sound.passes c g h f fwd w hg hparent hf hpipe hw
  refine hI.setInput hg hparent ?_ ⟨fun hlooped hstale hok x y hx hnot hxy ↦ ?_,
    fun hstale how x hx ↦ ?_, hfits.looped⟩ (fun k fwd' w' hk hpipe' hw' ↦ ?_) ⟨b, htrim'⟩
    fun r hr hrp ↦ ?_
  · rintro d (hmem | ⟨x, rfl, -⟩) - - - hne
    · exact .inl hmem
    · exact absurd rfl (hne x)
  · -- where the rule overwrites, the flow is stale and nothing has to be shown
    have how : net.layout.overwrite? g.node = none := by
      by_contra how
      exact hstale (.inr (.inr ⟨rfl, how⟩))
    refine hfits.lower hlooped (fun hmem ↦ hstale (.inl (by simpa using hmem))) (fun w hw ↦ ?_)
      x y ((hleft x).1 hx).1 hnot hxy
    exact absurd (how.symm.trans hw) (by simp)
  · rcases hfits.upper (fun hmem ↦ hstale (.inl (by simpa using hmem))) how x hx with hin | hin
    · by_cases hm : piped.Matches x
      · exact .inr (.inr (.inl ⟨x, rfl, hm⟩))
      · exact .inl ⟨(hleft x).2 ⟨hin.1, hm⟩, hin.2⟩
    · exact .inr (.inl (by simpa using hin))
  · obtain rfl := Option.some.inj (hf.symm.trans hk)
    obtain rfl := Option.some.inj (hpipe.symm.trans hpipe')
    obtain rfl := hw.unique hw'
    have hloose : .loose c ∉ D ∪ claim net.layout g.node c (some piped) →
        .loose c ∉ D ∪ {d | ∃ x, d = .surplus c x ∧ loss.Matches x} := fun hne hmem ↦
      hne (.inl (by simpa using hmem))
    refine ⟨fun hne ↦ hpasses.alive (hloose hne),
      fun hne x hx hm ↦ (hleft x).2 ⟨hpasses.lower (hloose hne) x hx hm, fun hp ↦ ?_⟩,
      fun hne x hx ↦ ?_⟩
    · exact hlost x ((hboth x).1 hp).2 hx
    · obtain ⟨hx, hp⟩ := (hleft x).1 hx
      obtain ⟨hm, hx'⟩ := hpasses.upper (hloose hne) x hx
      refine ⟨hm, hx'.imp_right ?_⟩
      rintro (hmem | ⟨y, he, hy⟩)
      · exact .inl hmem
      · obtain ⟨-, rfl⟩ := Debt.surplus.inj he
        exact absurd ((hboth x).2 ⟨hm, hy⟩) hp
  · have := (hI.height hg hr hrp).1
    omega

/-- A loss that the pipe does not carry is none of the child. -/
theorem inv_spareLoss (hI : Inv net ∅ (D ∪ {d | ∃ x, d = .surplus c x ∧ loss.Matches x}))
    (hf : net.flows.find? h = some f) (hg : net.flows.find? c = some g)
    (hparent : g.parent = some h) (hpipe : g.pipe = some fwd) (hw : net.layout.Runs fwd w)
    (hapart : ∀ x, w.pattern.Matches x → ¬ loss.Matches x) : Inv net ∅ D := by
  have hpasses := hI.sound.passes c g h f fwd w hg hparent hf hpipe hw
  refine hI.withSound (hI.sound.payPasses (h := c) ?_ ?_)
  · rintro d (hmem | ⟨x, rfl, -⟩) - hne
    · exact hmem
    · exact absurd rfl (hne x)
  · intro g' p k fwd' w' hg' hp hk hpipe' hw'
    obtain rfl := Option.some.inj (hg.symm.trans hg')
    obtain rfl := Option.some.inj (hparent.symm.trans hp)
    obtain rfl := Option.some.inj (hf.symm.trans hk)
    obtain rfl := Option.some.inj (hpipe.symm.trans hpipe')
    obtain rfl := hw.unique hw'
    refine ⟨fun hloose ↦ hpasses.alive (by simpa using hloose),
      fun hloose ↦ hpasses.lower (by simpa using hloose), fun hloose x hx ↦ ?_⟩
    obtain ⟨hm, hx'⟩ := hpasses.upper (by simpa using hloose) x hx
    refine ⟨hm, hx'.imp_right ?_⟩
    rintro (hmem | ⟨y, he, hy⟩)
    · exact hmem
    · obtain ⟨-, rfl⟩ := Debt.surplus.inj he
      exact absurd hy (hapart _ hm)

/-- **What a child lost is taken out of what arrived there**, and the child is refreshed for it. -/
theorem inv_pushLoss (hrefresh : Refreshes refresh)
    (hl : Leads (pushLoss refresh loss c) net () net')
    (hI : Inv net ∅ (D ∪ {d | ∃ x, d = .surplus c x ∧ loss.Matches x}))
    (hf : net.flows.find? h = some f) (hlost : ∀ x, loss.Matches x → ¬ f.Sends x)
    (hcame : Came net.flows h c) (hd : Depth net.flows h d) :
    Inv net' ∅ D ∧ Frame (d + 1) net net' := by
  rw [pushLoss, leads_flow?_bind] at hl
  cases hg : net.flows.find? c with
  | none =>
    rw [hg] at hl
    obtain ⟨-, rfl⟩ := leads_pure.1 hl
    refine ⟨hI.withSound (hI.sound.void ?_), .refl _ _⟩
    rintro d (hmem | ⟨x, rfl, -⟩) ⟨k, hk⟩
    · exact hmem
    · exact absurd (hg.symm.trans hk) (by simp)
  | some g =>
    have hparent := hcame.parent hg
    obtain ⟨f', fwd, w, hf', hpipe, hw, hsender, -⟩ := hI.forest.wire hg hparent
    obtain rfl := Option.some.inj (hf.symm.trans hf')
    obtain ⟨side, hside, hpattern⟩ := hw.pipe
    have hside' : net.pipes.find? fwd = some side := hside
    simp only [hg, hpipe, leads_pipe?_bind, hside', leads_check_bind] at hl
    obtain ⟨piped, hpiped, hl⟩ := hl
    obtain ⟨hbytes, hmeet⟩ := Pattern.of_intersect_eq_ok hpiped
    cases piped with
    | none =>
      obtain ⟨-, rfl⟩ := leads_pure.1 hl
      exact ⟨inv_spareLoss hI hf hg hparent hpipe hw fun x hm ↦
        Pattern.not_matches_of_meet?_eq_none hbytes hmeet (hpattern ▸ hm), .refl _ _⟩
    | some piped =>
      have hboth : ∀ x, piped.Matches x ↔ w.pattern.Matches x ∧ loss.Matches x := fun x ↦ by
        rw [Pattern.matches_of_meet?_eq_some hbytes hmeet, hpattern]
      simp only [leads_check_bind, leads_updateFlow_bind] at hl
      obtain ⟨input, hinput, hl⟩ := hl
      have hI₁ := inv_cutInput hI hf hlost hg hparent hpipe hw hboth hinput
      have hdc : Depth net.flows c (d + 1) := .step hg hparent hd
      have hr := Replaces.modify (k := fun f : Flow ↦ { f with input := input }) hg rfl
      have hframe : Frame (d + 1) net (withFlow net c fun f ↦ { f with input := input }) :=
        frame_withFlow (fun _ ↦ rfl) hdc
      obtain ⟨hI', hframe'⟩ := hrefresh _ net' c { g with input := input } (some piped) D (d + 1) hl
        hI₁ hr.after (by simp) (by
          rintro _ ⟨⟩ x hx hin
          exact absurd hx ((Space.contains_of_cut hinput).1 hin).2) (hr.depth.2 hdc)
      exact ⟨hI', hframe.trans hframe'⟩

/-- A loss is pushed down to everything that came from a flow. -/
theorem inv_forM_pushLoss (hrefresh : Refreshes refresh) {l : List Handle}
    (hl : Leads (l.forM (pushLoss refresh loss)) net () net')
    (hI : Inv net ∅ (D ∪ {d | ∃ c ∈ l, ∃ x, d = .surplus c x ∧ loss.Matches x}))
    (hf : net.flows.find? h = some f) (hlost : ∀ x, loss.Matches x → ¬ f.Sends x)
    (hcame : ∀ c ∈ l, Came net.flows h c) (hd : Depth net.flows h d) :
    Inv net' ∅ D ∧ Frame (d + 1) net net' := by
  refine inv_forM_pay (fun _ c ↦ {e | ∃ x, e = .surplus c x ∧ loss.Matches x}) hl hI
    (fun _ he _ ↦ he) ?_
  intro c hmem mid mid' D hframe hstep hImid
  obtain ⟨f', hf', halike⟩ := hframe.spares h d f hd (Nat.lt_succ_self d) hf
  exact inv_pushLoss hrefresh hstep hImid hf' (fun x hx ↦ mt halike.sends.1 (hlost x hx))
    ((hcame c hmem).stable hframe.stable) (hframe.spares.depth hd (Nat.lt_succ_self d))

/-! ### Renewing

The children are gone through in the order of the list, while some of them are dropped. A child that
is past by then is skipped. The pipes that were used are remembered, and the invariant says that a
child that is left came by one of these. -/

/-- The pipes of a flow that none of the flows came by. -/
def unused (h : Handle) (used : List Handle) : Set Debt :=
  {d | ∃ fwd, d = .pending h fwd ∧ fwd ∉ used}

/-- The pipes that are pending are those that were not used. -/
theorem mem_unused {used : List Handle} {fwd : Handle} :
    .pending h fwd ∈ unused h used ↔ fwd ∉ used := by
  constructor
  · rintro ⟨fwd', he, hne⟩
    exact (Debt.pending.inj he).2 ▸ hne
  · exact fun hne ↦ ⟨fwd, rfl, hne⟩

/-- What arrives at a child may be computed anew, whereupon the child is stale. -/
theorem inv_renewInput {side : Pipe} {out : Space} (hI : Inv net ∅ (D ∪ {.loose c}))
    (hf : net.flows.find? h = some f) (hsends : f.processed = some processed)
    (hg : net.flows.find? c = some g) (hparent : g.parent = some h) (hpipe : g.pipe = some fwd)
    (hside : net.pipes.find? fwd = some side) (hout : pipeOut processed side = .ok out) :
    Inv (withFlow net c fun f ↦ { f with input := out }) ∅ (D ∪ {.stale c}) := by
  obtain ⟨hcover, htrim, -, hheight⟩ := pipeOut_spec hout
  have hfits := hI.sound.fits c g hg
  refine hI.setInput hg hparent ?_ ⟨fun _ hstale ↦ absurd (.inr rfl) hstale, fun hstale ↦
    absurd (.inr rfl) hstale, hfits.looped⟩ (fun k fwd' w' hk hpipe' hw' ↦ ?_) ⟨_, htrim⟩
    fun r hr hrp ↦ ?_
  · rintro d (hmem | rfl) - - hne -
    · exact .inl hmem
    · exact absurd rfl hne
  · obtain rfl := Option.some.inj (hf.symm.trans hk)
    obtain rfl := Option.some.inj (hpipe.symm.trans hpipe')
    obtain ⟨side', hside', hpattern⟩ := hw'.pipe
    obtain rfl := Option.some.inj (hside.symm.trans hside')
    refine ⟨fun _ ↦ by simp [hsends], fun _ x hx hm ↦ ?_, fun _ x hx ↦ ?_⟩
    · obtain ⟨s, hs, hxs⟩ := hx
      obtain rfl := Option.some.inj (hsends.symm.trans hs)
      exact (hcover x).2 ⟨hxs, hpattern ▸ hm⟩
    · obtain ⟨hxs, hm⟩ := (hcover x).1 hx
      exact ⟨hpattern ▸ hm, .inl ⟨processed, hsends, hxs⟩⟩
  · have hup := hI.forest.came c g h f hg hparent hf
    rw [hup.1] at hr
    exact Nat.le_trans hheight ((hI.height hf hr hrp).2 processed hsends)

/-- The pipe that a flow came by is in use. -/
theorem inv_use {E : Set Debt} {used : List Handle} (hI : Inv net ∅ ((D ∪ unused h used) ∪ E))
    (hg : net.flows.find? c = some g) (hparent : g.parent = some h) (hpipe : g.pipe = some fwd) :
    Inv net ∅ ((D ∪ unused h (used ++ [fwd])) ∪ E) := by
  refine hI.withSound (Sound.settle (hI.sound.mono ?_ : Sound _ _ (_ ∪ {.pending h fwd}))
    fun k w' _ _ _ ↦ .inl ⟨c, g, hg, hparent, hpipe⟩)
  rintro d ((hmem | ⟨fwd', rfl, hne⟩) | hmem)
  · exact .inl (.inl (.inl hmem))
  · by_cases he : fwd' = fwd
    · exact .inr (he ▸ rfl)
    · exact .inl (.inl (.inr (mem_unused.2 (by simp [hne, he]))))
  · exact .inl (.inr hmem)

/-- A child to which its pipe carries nothing any more goes, and nothing is owed for the pipe. -/
theorem inv_removeChild (hl : Leads (removeFlow c) net () net') (hI : Inv net ∅ (D ∪ {.loose c}))
    (hf : net.flows.find? h = some f) (hg : net.flows.find? c = some g)
    (hparent : g.parent = some h) (hpipe : g.pipe = some fwd) (hw : net.layout.Runs fwd w)
    (hnone : ∀ x, f.Sends x → ¬ w.pattern.Matches x) (hd : Depth net.flows h d) :
    Inv net' ∅ D ∧ Frame (d + 1) net net' := by
  obtain ⟨hI₁, hframe, -, hgone, -⟩ := inv_removeFlow hl hI hg (.step hg hparent hd)
  obtain ⟨f₁, hf₁, halike⟩ := hframe.spares h d f hd (Nat.lt_succ_self d) hf
  have hI₂ : Inv net' ∅ (D ∪ {.pending h fwd}) := by
    refine hI₁.withSound (hI₁.sound.void ?_)
    rintro d ((hmem | rfl) | ⟨p, fwd', hp, hpipe', rfl⟩) ⟨k, hk⟩
    · exact .inl hmem
    · exact absurd (hgone.symm.trans hk) (by simp)
    · obtain rfl := Option.some.inj (hparent.symm.trans hp)
      obtain rfl := Option.some.inj (hpipe.symm.trans hpipe')
      exact .inr rfl
  refine ⟨hI₂.withSound (hI₂.sound.settle fun k w' hk hw' _ ↦ .inr fun x hx ↦ ?_), hframe⟩
  obtain rfl := Option.some.inj (hf₁.symm.trans hk)
  rw [hframe.layout] at hw'
  rw [← hw.unique hw']
  exact hnone x (halike.sends.1 hx)

/-- **A child that is renewed has what its pipe carries of what is sent now**; if that is nothing,
it is gone. -/
theorem inv_renewChild (hrefresh : Refreshes refresh) {ans : Option Handle} {used : List Handle}
    (hl : Leads (renewChild refresh processed c) net ans net')
    (hI : Inv net ∅ (D ∪ {.loose c} ∪ unused h used)) (hf : net.flows.find? h = some f)
    (hsends : f.processed = some processed) (hcame : Came net.flows h c)
    (hd : Depth net.flows h d) :
    Inv net' ∅ (D ∪ unused h (used ++ ans.toList)) ∧ Frame (d + 1) net net' := by
  rw [renewChild, leads_flow?_bind] at hl
  cases hg : net.flows.find? c with
  | none =>
    rw [hg] at hl
    obtain ⟨rfl, rfl⟩ := leads_pure.1 hl
    -- The child went with another one, and what it owed is void.
    refine ⟨hI.withSound (hI.sound.void ?_), .refl _ _⟩
    rintro d ((hmem | rfl) | hmem) ⟨k, hk⟩
    · exact .inl hmem
    · exact absurd (hg.symm.trans hk) (by simp)
    · exact .inr (by simpa using hmem)
  | some g =>
    have hparent := hcame.parent hg
    obtain ⟨f', fwd, w, hf', hpipe, hw, hsender, -⟩ := hI.forest.wire hg hparent
    obtain rfl := Option.some.inj (hf.symm.trans hf')
    obtain ⟨side, hside, hpattern⟩ := hw.pipe
    have hside' : net.pipes.find? fwd = some side := hside
    simp only [hg, hpipe, leads_pipe?_bind, hside', leads_check_bind] at hl
    obtain ⟨out, hout, hl⟩ := hl
    obtain ⟨hcover, -, hnormal, -⟩ := pipeOut_spec hout
    have hdc : Depth net.flows c (d + 1) := .step hg hparent hd
    have hI₀ := hI.mono (Set.union_right_comm _ _ _).le
    -- A pipe that carries nothing any more is given up together with the child.
    rcases hl.ite with ⟨hempty, hl⟩ | ⟨-, hl⟩
    · obtain ⟨⟨⟩, net₁, hremove, hl⟩ := hl.bind
      obtain ⟨rfl, rfl⟩ := leads_pure.1 hl
      rw [Option.toList_none, List.append_nil]
      refine inv_removeChild hremove hI₀ hf hg hparent hpipe hw (fun x hx hm ↦ ?_) hd
      obtain ⟨s, hs, hxs⟩ := hx
      obtain rfl := Option.some.inj (hsends.symm.trans hs)
      exact Space.not_contains_of_isEmpty hempty ((hcover x).2 ⟨hxs, hpattern ▸ hm⟩)
    · rw [leads_updateFlow_bind] at hl
      obtain ⟨⟨⟩, net₁, hrun, hl⟩ := hl.bind
      obtain ⟨rfl, rfl⟩ := leads_pure.1 hl
      have hr := Replaces.modify (k := fun f : Flow ↦ { f with input := out }) hg rfl
      have hI₁ : Inv (withFlow net c fun f ↦ { f with input := out }) ∅
          ((D ∪ unused h (used ++ [fwd])) ∪ {.stale c}) :=
        inv_use (inv_renewInput hI₀ hf hsends hg hparent hpipe hside' hout) hr.after hparent hpipe
      have hframe : Frame (d + 1) net (withFlow net c fun f ↦ { f with input := out }) :=
        frame_withFlow (fun _ ↦ rfl) hdc
      obtain ⟨hI', hframe'⟩ := hrefresh _ net' c { g with input := out } none _ (d + 1) hrun hI₁
        hr.after (fun _ ↦ .inr hnormal) (by simp) (hr.depth.2 hdc)
      exact ⟨hI', hframe.trans hframe'⟩

/-- Renewing one child after the other. -/
theorem inv_renewChildren (hrefresh : Refreshes refresh) {cs ans used : List Handle}
    (hl : Leads (renewChildren refresh processed cs) net ans net')
    (hI : Inv net ∅ (D ∪ {d | ∃ c ∈ cs, d = .loose c} ∪ unused h used))
    (hf : net.flows.find? h = some f) (hsends : f.processed = some processed)
    (hcame : ∀ c ∈ cs, Came net.flows h c) (hd : Depth net.flows h d) :
    Inv net' ∅ (D ∪ unused h (used ++ ans)) ∧ Frame (d + 1) net net' := by
  induction cs generalizing net ans used f with
  | nil =>
    obtain ⟨rfl, rfl⟩ := leads_pure.1 hl
    exact ⟨hI.mono (by simp), .refl _ _⟩
  | cons c cs ih =>
    obtain ⟨one, net₁, hone, hrest⟩ := hl.bind
    obtain ⟨more, net₂, hmore, hrest⟩ := hrest.bind
    obtain ⟨rfl, rfl⟩ := leads_pure.1 hrest
    have hI₀ : Inv net ∅ ((D ∪ {d | ∃ c ∈ cs, d = .loose c}) ∪ {.loose c} ∪ unused h used) := by
      refine hI.mono ?_
      rintro d ((hmem | ⟨c', hc', rfl⟩) | hmem)
      · exact .inl (.inl (.inl hmem))
      · rcases List.mem_cons.1 hc' with rfl | hc'
        · exact .inl (.inr rfl)
        · exact .inl (.inl (.inr ⟨c', hc', rfl⟩))
      · exact .inr hmem
    obtain ⟨hI₁, hframe₁⟩ := inv_renewChild hrefresh hone hI₀ hf hsends (hcame c List.mem_cons_self)
      hd
    obtain ⟨f₁, hf₁, halike⟩ := hframe₁.spares h d f hd (Nat.lt_succ_self d) hf
    obtain ⟨hI₂, hframe₂⟩ := ih hmore hI₁ hf₁ (halike.processed.trans hsends)
      (fun c' hc' ↦ (hcame c' (List.mem_cons_of_mem _ hc')).stable hframe₁.stable)
      (hframe₁.spares.depth hd (Nat.lt_succ_self d))
    rw [List.append_assoc] at hI₂
    exact ⟨hI₂, hframe₁.trans hframe₂⟩

/-- **Renewing everything that came from a flow.** -/
theorem inv_renewAll (harrive : Arrives arrive) (hrefresh : Refreshes refresh)
    (hl : Leads (renewAll arrive refresh h f processed) net () net')
    (hI : Inv net ∅ (D ∪ {d | ∃ c ∈ f.children, d = .loose c} ∪ {d | ∃ fwd, d = .pending h fwd}))
    (hf : net.flows.find? h = some f) (hsends : f.processed = some processed)
    (hd : Depth net.flows h d) : Inv net' ∅ D ∧ Frame (d + 1) net net' := by
  obtain ⟨used, net₁, hrenew, hrest⟩ := hl.bind
  have hunused : Inv net ∅ (D ∪ {d | ∃ c ∈ f.children, d = .loose c} ∪ unused h []) := by
    refine hI.mono ?_
    rintro d (hmem | ⟨fwd, rfl⟩)
    · exact .inl hmem
    · exact .inr (mem_unused.2 List.not_mem_nil)
  obtain ⟨hI₁, hframe⟩ :=
    inv_renewChildren hrefresh hrenew hunused hf hsends (came_of_children hI hf) hd
  rw [leads_node_bind] at hrest
  obtain ⟨n, hn, hrest⟩ := hrest
  obtain ⟨f₁, hf₁, halike⟩ := hframe.spares h d f hd (Nat.lt_succ_self d) hf
  have hnode := Flow.node_eq halike.way
  have hbody : ∀ fwd net₁ net₂,
      Leads (if !used.contains fwd then send arrive f.node h fwd .flow else pure ()) net₁ () net₂ →
      (∃ measure, Leads (send arrive f₁.node h fwd measure) net₁ () net₂) ∨
        ¬ fwd ∉ used ∧ net₂ = net₁ := by
    intro fwd net₁ net₂ hstep
    rcases hstep.ite with ⟨-, hstep⟩ | ⟨hused, hstep⟩
    · exact .inl ⟨_, hnode ▸ hstep⟩
    · exact .inr ⟨by simpa using hused, (leads_pure.1 hstep).2⟩
  obtain ⟨hI', hframe'⟩ := inv_forM_next harrive hrest hbody hI₁ (hnode ▸ hn) hf₁
    (hframe.spares.depth hd (Nat.lt_succ_self d))
  exact ⟨hI', hframe.trans hframe'⟩

/-! ### Going on

After the headers of a flow were changed it may be left without any. Then all below it is dropped,
which pays every debt there; otherwise the change is passed on. -/

/-- A claim is about the headers of one flow; other debts were there before. -/
theorem mem_of_claim {o : Option Pattern} {e : Debt} (he : e ∈ D ∪ claim L f.node h o)
    (hstale : e ≠ .stale h) (hexcess : ∀ x, e ≠ .excess h x) : e ∈ D := by
  rcases he with he | he
  · exact he
  · cases o with
    | none => exact absurd he hstale
    | some loss =>
      rcases he with ⟨x, rfl, -⟩ | ⟨rfl, -⟩
      · exact absurd rfl (hexcess x)
      · exact absurd rfl hstale

/-- A flow without headers has nothing below it and owes nothing but what it owed before. -/
theorem inv_goOn_dead {o : Option Pattern} (hl : Leads (goOn arrive refresh h o false) net () net')
    (hI : Inv net ∅ D')
    (hD : ∀ e ∈ D', e ∈ D ∨ (∃ fwd, e = .pending h fwd) ∨ e.flow ∈ f.children)
    (hf : net.flows.find? h = some f) (hnone : ∀ x, ¬ f.Sends x) (hparent : f.parent ≠ none)
    (hd : Depth net.flows h d) : Inv net' ∅ D ∧ Frame d net net' := by
  obtain ⟨⟨⟩, net₁, hdrop, hrest⟩ := hl.bind
  obtain rfl := (leads_alterFlow.1 hrest).2
  obtain ⟨hI₁, hframe, hf₁, hd₁, hleaf⟩ := inv_dropBelow hdrop hI hf hd
  have hI₂ : Inv net₁ ∅ (D ∪ {e | ∃ fwd, e = .pending h fwd}) := by
    refine hI₁.withSound (hI₁.sound.void ?_)
    rintro e (he | he) ⟨k, hk⟩
    · rcases hD e he with he | he | he
      · exact .inl he
      · exact .inr he
      · have hcame := (came_of_children hI hf e.flow he).stable hframe.stable
        exact absurd (hcame.parent hk) (hleaf e.flow k hk)
    · exact .inr he
  have hfits := hI₂.sound.fits h _ hf₁
  have hempty : ∀ x, ¬ ({ f with children := [], processed := none } : Flow).Sends x :=
    Flow.not_sends rfl
  refine ⟨hI₂.setProcessed hf₁ rfl hparent
    (fun e he _ _ hpending ↦ he.resolve_right fun ⟨fwd, hfwd⟩ ↦
    hpending fwd hfwd)
      ⟨fun hlooped hstale hok x y hx hnot hxy ↦ ?_, fun _ _ x hx ↦ absurd hx (hempty x),
        fun _ ↦ rfl⟩ (fun c g _ _ hc hp ↦ absurd hp (hleaf c g hc)) (.of_not_sends hempty) (by simp)
          (by simp),
    (hframe.mono (Nat.le_succ d)).trans (frame_withFlow (fun _ ↦ rfl) hd₁)⟩
  exact absurd (hfits.lower hlooped (fun hmem ↦ hstale (by simpa using hmem)) hok x y hx hnot hxy)
    (hnone y)

/-- **Computing anew what leaves a rule** pays any claim. -/
theorem inv_recompute {o : Option Pattern} (harrive : Arrives arrive) (hrefresh : Refreshes refresh)
    {alive : Bool} {mid : Network} (hrecompute : Leads (recompute f.node h) net alive mid)
    (hl : Leads (goOn arrive refresh h none alive) mid () net')
    (hI : Inv net ∅ (D ∪ claim net.layout f.node h o)) (hf : net.flows.find? h = some f)
    (hn : net.nodeAt? f.node = some n) (hr : n.role = .rule r) (hlooped : f.looped = false)
    (hparent : f.parent ≠ none) (hd : Depth net.flows h d) : Inv net' ∅ D ∧ Frame d net net' := by
  obtain ⟨b, htrim⟩ := (hI.sound.shaped h f hf).input hparent
  obtain ⟨processed, rfl, rfl, hcomputes⟩ := hrecompute.recompute hf hn hr htrim hlooped
  have hI₁ := inv_computed (C := D) hI (fun e he ↦ mem_of_claim he) hf hparent hcomputes
  have hreplaces := Replaces.modify (k := fun f : Flow ↦ { f with processed := processed }) hf rfl
  have hframe : Frame d net (withFlow net h fun f ↦ { f with processed := processed }) :=
    frame_withFlow (fun _ ↦ rfl) hd
  have hd₁ := hreplaces.depth.2 hd
  cases processed with
  | none =>
    obtain ⟨hI', hframe'⟩ := inv_goOn_dead (D := D) hl hI₁ (by
      rintro e ((he | ⟨c, hc, rfl⟩) | he)
      · exact .inl he
      · exact .inr (.inr hc)
      · exact .inr (.inl he)) hreplaces.after (Flow.not_sends rfl) hparent hd₁
    exact ⟨hI', hframe.trans hframe'⟩
  | some processed =>
    rw [goOn, if_pos Option.isSome_some, passOn, leads_flow_bind] at hl
    obtain ⟨f₁, hf₁, hl⟩ := hl
    obtain rfl := Option.some.inj (hreplaces.after.symm.trans hf₁)
    obtain ⟨hI', hframe'⟩ := inv_renewAll harrive hrefresh hl hI₁ hf₁ rfl hd₁
    exact ⟨hI', hframe.trans (hframe'.mono (Nat.le_succ d))⟩

/-- What is left after a loss is as it should be if only headers were lost that the flow may not
keep. -/
theorem fits_of_loss (hf : Fits L (D ∪ claim L f.node h (some loss)) h f)
    (how : L.overwrite? f.node = none) (hlooped : f.looped = false)
    (hloss : ∀ x, loss.Matches x → f.input.Contains x → L.Taken f.node f.port x)
    {o : Option Space} (hsends : ∀ x, ({ f with processed := o } : Flow).Sends x ↔
      f.Sends x ∧ ¬ loss.Matches x)
    (hD' : ∀ e ∈ D, e ∈ D') : Fits L D' h { f with processed := o } := by
  have hstale : .stale h ∉ D' → .stale h ∉ D ∪ claim L f.node h (some loss) := by
    rintro hne (hmem | ⟨x, he, -⟩ | ⟨-, hw⟩)
    · exact hne (hD' _ hmem)
    · exact absurd he (by simp)
    · exact hw how
  refine ⟨fun _ hne hok x y hx hnot hxy ↦ ?_, fun hne _ x hx ↦ ?_,
    fun hl ↦ absurd (hlooped.symm.trans hl) (by simp)⟩
  · have hsame : y = x := (Layout.turns_of_eq_none how).1 hxy
    refine (hsends y).2 ⟨hf.lower hlooped (hstale hne) hok x y hx hnot hxy, fun hm ↦ hnot ?_⟩
    exact hloss x (hsame ▸ hm) hx
  · obtain ⟨hx, hm⟩ := (hsends x).1 hx
    refine (hf.upper (hstale hne) how x hx).imp_right ?_
    rintro (hmem | ⟨y, he, hy⟩ | ⟨he, -⟩)
    · exact hD' _ hmem
    · obtain ⟨-, rfl⟩ := Debt.excess.inj he
      exact absurd hy hm
    · exact absurd he (by simp)

/-- **A loss at a flow**: the flow is paid for, and what came from it may have too much. -/
theorem inv_lose {alive : Bool} (hl : Leads (lose h processed loss) net alive net')
    (hI : Inv net ∅ (D ∪ claim net.layout f.node h (some loss))) (hf : net.flows.find? h = some f)
    (hsends : f.processed = some processed) (hparent : f.parent ≠ none)
    (how : net.layout.overwrite? f.node = none) (hlooped : f.looped = false)
    (hloss : ∀ x, loss.Matches x → f.input.Contains x → net.layout.Taken f.node f.port x)
    (hd : Depth net.flows h d) :
    ∃ left, Inv net' ∅ (D ∪ {e | ∃ c ∈ f.children, ∃ x, e = .surplus c x ∧ loss.Matches x}) ∧
      Frame d net net' ∧ Depth net'.flows h d ∧ alive = !left.isEmpty ∧
      net'.flows.find? h = some { f with processed := some left } ∧
      ∀ x, left.Contains x → ¬ loss.Matches x := by
  obtain ⟨b, htrim, -⟩ := (hI.sound.shaped h f hf).processed hparent how processed hsends
  obtain ⟨left, rfl, halive, htrim', hnormal, hleft, hheight⟩ := hl.lose htrim
  have hshrinks : ∀ x, ({ f with processed := some left } : Flow).Sends x ↔
      f.Sends x ∧ ¬ loss.Matches x := by
    intro x
    simp only [Flow.Sends, hsends, Option.some.injEq, exists_eq_left', hleft]
  have hreplaces := Replaces.modify (k := fun f : Flow ↦ { f with processed := some left }) hf rfl
  refine ⟨left, hI.setProcessed hf rfl hparent (fun e he hstale hexcess _ ↦
    .inl (mem_of_claim he hstale hexcess))
      (fits_of_loss (hI.sound.fits h f hf) how hlooped hloss hshrinks
      fun e he ↦ .inl he) (fun c g fwd w hc hp hpipe hw ↦ ?_)
        (fun fwd w hw hsender hleaves hpending ↦ ?_)
    (fun _ s hs ↦ ⟨b, Option.some.inj hs ▸ ⟨htrim', hnormal⟩⟩) (fun s hs r hr hrp ↦ ?_),
    frame_withFlow (fun _ ↦ rfl) hd, hreplaces.depth.2 hd, halive, hreplaces.after,
    fun x hx ↦ ((hleft x).1 hx).2⟩
  · have hpasses := hI.sound.passes c g h f fwd w hc hp hf hpipe hw
    have hmem := hI.forest.listed c g h f hc (Set.notMem_empty c) hp hf
    have hloose : .loose c ∉ D ∪ {e | ∃ c ∈ f.children, ∃ x, e = .surplus c x ∧ loss.Matches x} →
        .loose c ∉ D ∪ claim net.layout f.node h (some loss) := fun hne he ↦
      hne (.inl (mem_of_claim he (by simp) (by simp)))
    refine ⟨by simp, fun hne x hx ↦ hpasses.lower (hloose hne) x ((hshrinks x).1 hx).1,
      fun hne x hx ↦ ?_⟩
    obtain ⟨hm, hx'⟩ := hpasses.upper (hloose hne) x hx
    refine ⟨hm, ?_⟩
    by_cases hlost : loss.Matches x
    · exact .inr (.inr ⟨c, hmem, x, rfl, hlost⟩)
    · exact hx'.imp (fun hx ↦ (hshrinks x).2 ⟨hx, hlost⟩) fun he ↦
        .inl (mem_of_claim he (by simp) (by simp))
  · refine (hI.sound.sent h f hf fwd w hw hsender hleaves fun he ↦
      hpending (.inl (mem_of_claim he (by simp) (by simp)))).imp_right fun hno x hx ↦ ?_
    exact hno x ((hshrinks x).1 hx).1
  · obtain rfl := Option.some.inj hs
    have := (hI.height hf hr hrp).2 processed hsends
    omega

/-! ### Whole visits

What is claimed at a flow depends on the node at which it is: a rule that overwrites, one that does
not, or a probe. -/

/-- A claim is paid by a flow that is as it should be already. -/
theorem inv_payClaim {o : Option Pattern} (hI : Inv net ∅ (D ∪ claim net.layout f.node h o))
    (hf : net.flows.find? h = some f) (hfits : Fits net.layout D h f) : Inv net ∅ D := by
  refine hI.withSound (hI.sound.payFits (h := h) (fun e he ↦ mem_of_claim he) fun k hk ↦ ?_)
  exact Option.some.inj (hf.symm.trans hk) ▸ hfits

/-- A flow that has come back owes nothing, since it goes no further. -/
theorem fits_of_looped (hf : Fits L D' h f) (hlooped : f.looped = true) : Fits L D h f :=
  ⟨fun hl ↦ absurd (hlooped.symm.trans hl) (by simp),
    fun _ _ x hx ↦ absurd hx (Flow.not_sends (hf.looped hlooped) x), hf.looped⟩

/-- A flow that had nothing has nothing to lose. -/
theorem fits_of_processed_eq_none (hf : Fits L (D ∪ claim L f.node h (some loss)) h f)
    (how : L.overwrite? f.node = none) (hnone : f.processed = none) : Fits L D h f := by
  refine ⟨fun hl hstale ↦ hf.lower hl ?_, fun _ _ x hx ↦ absurd hx (Flow.not_sends hnone x),
    fun _ ↦ hnone⟩
  rintro (hmem | ⟨x, he, -⟩ | ⟨-, hw⟩)
  · exact hstale hmem
  · exact absurd he (by simp)
  · exact hw how

/-- **At a rule** a loss is taken out of what leaves, or what leaves is computed anew, and then it
goes on from there. -/
theorem inv_reconsiderAtRule {o : Option Pattern} (harrive : Arrives arrive)
    (hrefresh : Refreshes refresh)
    (hl : Leads (reconsiderAtRule arrive refresh h f r o) net () net')
    (hI : Inv net ∅ (D ∪ claim net.layout f.node h o)) (hf : net.flows.find? h = some f)
    (hn : net.nodeAt? f.node = some n) (hr : n.role = .rule r) (hparent : f.parent ≠ none)
    (hloss : ∀ p, o = some p → ∀ x, p.Matches x → f.input.Contains x →
      net.layout.Taken f.node f.port x)
    (hd : Depth net.flows h d) : Inv net' ∅ D ∧ Frame d net net' := by
  have how := overwrite?_of_role hn hr
  rw [reconsiderAtRule] at hl
  rcases hl.ite with ⟨hlooped, hrun⟩ | ⟨hlooped, hrun⟩
  · obtain ⟨-, rfl⟩ := leads_pure.1 hrun
    exact ⟨inv_payClaim hI hf (fits_of_looped (hI.sound.fits h f hf) hlooped), .refl _ _⟩
  · have hlooped' : f.looped = false := by simpa using hlooped
    split at hrun
    · obtain ⟨alive, mid, hrecompute, hrest⟩ := hrun.bind
      exact inv_recompute harrive hrefresh hrecompute hrest hI hf hn hr hlooped' hparent hd
    · -- what was lost is only of use where nothing is overwritten
      rename_i loss ho
      obtain ⟨how', rfl⟩ : r.overwrite = none ∧ o = some loss := by
        cases hw : r.overwrite <;> simp_all
      cases hp : f.processed with
      -- Nothing was ever computed here, so nothing is owed.
      | none =>
        simp only [hp] at hrun
        obtain ⟨-, rfl⟩ := leads_pure.1 hrun
        exact ⟨inv_payClaim hI hf (fits_of_processed_eq_none (hI.sound.fits h f hf)
          (how.trans how') hp), .refl _ _⟩
      | some processed =>
        simp only [hp] at hrun
        obtain ⟨alive, mid, hlose, hrest⟩ := hrun.bind
        obtain ⟨left, hI₁, hframe, hd₁, rfl, hf₁, hlost⟩ := inv_lose hlose hI hf hp hparent
          (how.trans how') hlooped' (hloss loss rfl) hd
        have hlost' : ∀ x, loss.Matches x →
            ¬ ({ f with processed := some left } : Flow).Sends x := by
          rintro x hx ⟨s, hs, hxs⟩
          exact hlost x (Option.some.inj hs ▸ hxs) hx
        cases hempty : left.isEmpty with
        -- Nothing is left to leave, so all below goes, whatever it owes.
        | true =>
          simp only [hempty] at hrest
          have hnone : ∀ x, ¬ ({ f with processed := some left } : Flow).Sends x := by
            rintro x ⟨s, hs, hxs⟩
            exact Space.not_contains_of_isEmpty hempty (Option.some.inj hs ▸ hxs)
          obtain ⟨hI', hframe'⟩ := inv_goOn_dead (D := D) hrest hI₁ (by
            rintro e (he | ⟨c, hc, x, rfl, -⟩)
            · exact .inl he
            · exact .inr (.inr hc)) hf₁ hnone hparent hd₁
          exact ⟨hI', hframe.trans hframe'⟩
        -- The loss is pushed down to the children.
        | false =>
          simp only [hempty] at hrest
          rw [goOn, if_pos (by rfl), passOn, leads_flow_bind] at hrest
          obtain ⟨f₁, hf₁', hrest⟩ := hrest
          obtain rfl := Option.some.inj (hf₁.symm.trans hf₁')
          obtain ⟨hI', hframe'⟩ := inv_forM_pushLoss hrefresh hrest hI₁ hf₁ hlost'
            (came_of_children hI₁ hf₁) hd₁
          exact ⟨hI', hframe.trans (hframe'.mono (Nat.le_succ d))⟩

/-- **At a probe** what arrived is what is there, and nothing goes on from there. -/
theorem inv_reconsiderAtProbe {o : Option Pattern} {p : Probe}
    (hl : Leads (reconsiderAtProbe h f o) net () net')
    (hI : Inv net ∅ (D ∪ claim net.layout f.node h o)) (hf : net.flows.find? h = some f)
    (hn : net.nodeAt? f.node = some n) (hrole : n.role = .probe p) (hparent : f.parent ≠ none)
    (hrenew : o = none → Renewable net.layout f)
    (hloss : ∀ p, o = some p → ∀ x, p.Matches x → f.input.Contains x →
      net.layout.Taken f.node f.port x)
    (hd : Depth net.flows h d) : Inv net' ∅ D ∧ Frame d net net' := by
  obtain ⟨hcore, hkind⟩ := kind_of_role hn hrole
  have hnot : ¬ n.core.IsRule := by simp [Core.IsRule, hkind, Role.kind]
  have how := Layout.overwrite?_eq_none hcore hnot
  have hlooped : f.looped = false := by
    by_contra hl
    obtain ⟨place, hplace, -⟩ := hI.forest.looped h f hf (by simpa using hl)
    rw [Layout.loopKey?, hcore] at hplace
    simp [hkind, Role.kind] at hplace
  cases o with
  | none =>
    simp only [reconsiderAtProbe, leads_updateFlow] at hl
    subst hl
    have hnormal : f.input.Normalized := by
      refine (hrenew rfl).resolve_left ?_
      rintro ⟨m, hm, hrule⟩
      obtain rfl := Option.some.inj (hcore.symm.trans hm)
      exact hnot hrule
    exact ⟨inv_setProcessed_probe hI hf hparent hlooped hnormal hn hrole,
      frame_withFlow (fun _ ↦ rfl) hd⟩
  | some loss =>
    cases hp : f.processed with
    | none =>
      simp only [reconsiderAtProbe, hp] at hl
      obtain ⟨-, rfl⟩ := leads_pure.1 hl
      exact ⟨inv_payClaim hI hf (fits_of_processed_eq_none (hI.sound.fits h f hf) how hp),
        .refl _ _⟩
    | some processed =>
      simp only [reconsiderAtProbe, hp] at hl
      obtain ⟨alive, hl⟩ := hl.discard
      obtain ⟨left, hI₁, hframe, -, -, hf₁, -⟩ := inv_lose hl hI hf hp hparent how hlooped
        (hloss loss rfl) hd
      -- nothing came from a probe, so nobody has too much
      refine ⟨hI₁.mono ?_, hframe⟩
      rintro e (he | ⟨c, hc, x, rfl, -⟩)
      · exact he
      · obtain ⟨g, hg, hgp⟩ := hI.forest.children h f c hf hc
        obtain ⟨-, _, w, -, hw, hsender, -⟩ := hI.forest.came c g h f hg hgp hf
        exact absurd hsender (hI.layout.not_runs hcore hkind hw)

/-- **Computing anew what a flow sends**, where `arrive` and `refresh` are called for what comes
from it. -/
theorem inv_reconsider (harrive : Arrives arrive) (hrefresh : Refreshes refresh) :
    Refreshes (reconsider arrive refresh) := by
  intro net net' h f o D d hl hI hf hrenew hloss hd
  rw [reconsider, leads_flow?_bind, hf] at hl
  simp only [leads_node_bind] at hl
  obtain ⟨n, hn, hl⟩ := hl
  cases hrole : n.role with
  | rule r =>
    simp only [hrole] at hl
    obtain ⟨hcore, hkind⟩ := kind_of_role hn hrole
    have hparent : f.parent ≠ none := fun hp ↦ by
      have := (hI.forest.isRoot_iff hI.layout hf hcore).1 hp
      simp [hkind, Role.kind] at this
    exact inv_reconsiderAtRule harrive hrefresh hl hI hf hn hrole hparent hloss hd
  | probe p =>
    simp only [hrole] at hl
    obtain ⟨hcore, hkind⟩ := kind_of_role hn hrole
    have hparent : f.parent ≠ none := fun hp ↦ by
      have := (hI.forest.isRoot_iff hI.layout hf hcore).1 hp
      simp [hkind, Role.kind] at this
    obtain ⟨⟨⟩, mid, hat, hnotify⟩ := hl.bind
    obtain ⟨hI₁, hframe⟩ := inv_reconsiderAtProbe hat hI hf hn hrole hparent hrenew hloss hd
    have hq := quiet_notify (map_key_cores mid ▸ hI₁.layout.nodup) hnotify
    exact ⟨hq.inv hI₁, hframe.trans (hq.frame d)⟩
  | source =>
    simp only [hrole] at hl
    obtain ⟨-, rfl⟩ := leads_pure.1 hl
    obtain ⟨hcore, hkind⟩ := kind_of_role hn hrole
    obtain ⟨hprocessed, hlooped⟩ := hI.sound.source h f hf
      ((hI.forest.isRoot_iff hI.layout hf hcore).2 hkind)
    refine ⟨inv_payClaim hI hf (fits_of_sends_iff hcore ?_ hlooped fun x ↦ ?_), .refl _ _⟩
    · simp [Core.IsRule, hkind, Role.kind]
    · simp [Flow.Sends, hprocessed]

/-- **However deep the visits may be nested**, a refresh that comes to its end has paid the
claim. -/
theorem refreshWithin_refreshes (room : Nat) : Refreshes (refreshWithin room) := by
  induction room with
  | zero =>
    intro net net' h f o D d hl
    obtain ⟨⟨⟩, mid, -, hdeep⟩ := hl.bind
    exact absurd hdeep not_leads_tooDeep
  | succ room ih =>
    intro net net' h f o D d hl hI hf hrenew hloss hd
    exact inv_visit hl hI fun b mid hrun hI' ↦
      inv_reconsider (arriveWithin_arrives room) ih _ mid h f o D d hrun hI' hf hrenew hloss hd

/-- Refreshing with as much room as the limit allows. -/
theorem refresh_refreshes : Refreshes Engine.refresh := by
  intro net net' h f o D d hl
  rw [Engine.refresh, leads_room_bind] at hl
  exact refreshWithin_refreshes _ net net' h f o D d hl

/-! ### All flows of a node

The flows are read off the node before the first of them is refreshed. None of them can go by
refreshing another one at the same node, unless it came from it, and then it is past and skipped. -/

/-- A claim is on the flow that is refreshed. -/
theorem flow_of_claim {key : NodeKey} {o : Option Pattern} {e : Debt} (he : e ∈ claim L key h o) :
    e.flow = h := by
  cases o with
  | none =>
    obtain rfl := he
    rfl
  | some loss => obtain ⟨x, rfl, -⟩ | ⟨rfl, -⟩ := he <;> rfl

/-- What is owed by the flows of a node that came in by some ports. -/
def dues (L : Layout) (F : Arena Flow) (key : NodeKey) (ports : PortSet) (o : Option Pattern) :
    Set Debt :=
  {e | ∃ h f, F.find? h = some f ∧ f.node = key ∧ f.port ∈ ports.toList ∧ e ∈ claim L key h o}

/-- There is nothing to refresh at a source. -/
theorem quiet_refreshRoot {o : Option Pattern} (hl : Leads (Engine.refresh h o) net () net')
    (hI : Inv net ∅ D) (hf : net.flows.find? h = some f) (hp : f.parent = none) :
    Quiet net net' := by
  rw [Engine.refresh, leads_room_bind] at hl
  generalize net.budget.maxDepth = room at hl
  cases room with
  | zero =>
    obtain ⟨⟨⟩, mid, -, hdeep⟩ := hl.bind
    exact absurd hdeep not_leads_tooDeep
  | succ room =>
    obtain ⟨before, after, mid, hrun, rfl⟩ := hl.visit
    rw [reconsider, leads_flow?_bind, hf] at hrun
    simp only [leads_node_bind] at hrun
    obtain ⟨n, hn, hrun⟩ := hrun
    rw [role_of_kind ((hI.forest.isRoot_iff hI.layout hf (Layout.core?_of_nodeAt? hn)).1 hp)]
      at hrun
    obtain ⟨-, rfl⟩ := leads_pure.1 hrun
    exact ⟨rfl, rfl, rfl⟩

/-- **Refreshing the flows of a node that came in by some ports** pays what these owe. -/
theorem inv_refreshFlows {key : NodeKey} {ports : PortSet} {o : Option Pattern}
    (hl : Leads (refreshFlows key ports o) net () net')
    (hI : Inv net ∅ (D ∪ dues net.layout net.flows key ports o))
    (hrule : o = none → ∃ n, net.layout.core? key = some n ∧ n.IsRule)
    (hloss : ∀ p, o = some p → ∀ port ∈ ports.toList, ∀ x, p.Matches x →
      net.layout.Taken key port x) : Inv net' ∅ D ∧ Frame 1 net net' := by
  rw [refreshFlows, leads_node_bind] at hl
  obtain ⟨n, hn, hl⟩ := hl
  obtain ⟨hat, hall⟩ := at_of_mem_flows hI hn
  refine inv_forM_pay (fun F h ↦ {e | (∃ f, F.find? h = some f ∧ f.port ∈ ports.toList) ∧
    e ∈ claim net.layout key h o}) hl (hI.mono ?_) ?_ ?_
  · rintro e (he | ⟨h, f, hf, hnode, hport, he⟩)
    · exact .inl he
    · exact .inr ⟨h, hall h f hf hnode, ⟨f, hf, hport⟩, he⟩
  · rintro F F' h e hs ⟨⟨f, hf, hport⟩, hclaim⟩ ⟨f', hf'⟩
    rw [flow_of_claim hclaim] at hf'
    exact ⟨⟨f', hf', Flow.port_eq (hs.way hf hf') ▸ hport⟩, hclaim⟩
  · intro h hh mid mid' D hframe hstep hImid
    rw [leads_flow?_bind] at hstep
    rcases hstep.ite with ⟨hany, hrun⟩ | ⟨hany, hrun⟩
    · obtain ⟨f, hf, hport⟩ := (Option.any_eq_true _ _).1 hany
      have hnode := ((hat h hh).stable hframe.stable).node hf
      have hI₁ : Inv mid ∅ (D ∪ claim mid.layout f.node h o) := by
        rw [hframe.layout, hnode]
        exact hImid.mono (Set.union_subset_union_right _ fun _ he ↦ he.2)
      obtain ⟨d, hd⟩ := hImid.depth hf
      obtain ⟨hI', hframe'⟩ := refresh_refreshes mid mid' h f o D d hrun hI₁ hf (fun ho ↦ by
        rw [Renewable, hframe.layout, hnode]
        exact .inl (hrule ho)) (by
        rintro p rfl x hx -
        rw [hframe.layout, hnode]
        exact hloss p rfl f.port (PortSet.contains_iff.1 hport) x hx) hd
      refine ⟨hI', ?_⟩
      cases hp : f.parent with
      | none => exact (quiet_refreshRoot hrun hI₁ hf hp).frame 1
      | some p =>
        obtain ⟨e, rfl, -⟩ := hd.parent hf hp
        exact hframe'.mono (Nat.le_add_left 1 e)
    · -- the flow is gone, or it came in by another port
      obtain ⟨-, rfl⟩ := leads_pure.1 hrun
      refine ⟨hImid.withSound (hImid.sound.void ?_), .refl _ _⟩
      rintro e (he | ⟨⟨k, hk, hport⟩, -⟩) -
      · exact he
      · exact absurd ((Option.any_eq_true _ _).2 ⟨k, hk, PortSet.contains_iff.2 hport⟩) hany

end HeaderFlow.Engine
