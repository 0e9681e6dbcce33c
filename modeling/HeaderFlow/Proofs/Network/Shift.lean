import HeaderFlow.Proofs.Network.Refresh

/-!
# Changes of the layout

When a pipe or an influence comes or goes, flows are not touched at first, and **what they owe from
then on can be read off the layouts before and after** (`Shift`). A new pipe was not used by
anybody, a new influence leaves headers where they should not be any more, and one that is gone
makes the flows stale that it applied to.

## The invariant of a change

`Upheld net D X E R` is `Inv` together with what is known of the records: the flows owe `D`, the
influences in `X` are about to go, pipes may be missing where `E` says so, and influences where `R`
does. A step of a change takes one such statement to another, and a change comes to its end with all
four empty, which is what `AtRest` says. `Shift` is the half of such a step that is about flows: it
gives the debts after the step.
-/

namespace HeaderFlow

variable {L L' : Layout} {F : Arena Flow} {O : Set Handle} {D D' : Set Debt} {net net' : Network}

/-- The flows `F` of the layout `L` owe `D'` in the layout `L'`. -/
structure Shift (L L' : Layout) (F : Arena Flow) (D' : Set Debt) : Prop where
  keyMask : L'.keyMask = L.keyMask
  core : ∀ h f, F.find? h = some f → L'.core? f.node = L.core? f.node
  /-- No pipe has gone that a flow came by. -/
  kept : ∀ c g fwd w, F.find? c = some g → g.parent ≠ none → g.pipe = some fwd → L.Runs fwd w →
    L'.Runs fwd w
  runs : ∀ fwd w, L'.Runs fwd w → L.Runs fwd w ∨
    (∀ h f, F.find? h = some f → f.node = w.sender → .pending h fwd ∈ D') ∧
      ∀ c g, F.find? c = some g → g.parent ≠ none → g.pipe ≠ some fwd
  less : ∀ h f x, F.find? h = some f → L.Taken f.node f.port x →
    L'.Taken f.node f.port x ∨ .stale h ∈ D'
  more : ∀ h f x, F.find? h = some f → L'.Taken f.node f.port x →
    L.Taken f.node f.port x ∨ .stale h ∈ D' ∨ .excess h x ∈ D'

namespace Shift

variable {h : Handle} {f : Flow}

theorem overwrite? (hS : Shift L L' F D') (hf : F.find? h = some f) :
    L'.overwrite? f.node = L.overwrite? f.node := by
  rw [Layout.overwrite?, Layout.overwrite?, hS.core h f hf]

/-- Nodes with flows make the same of headers as before. -/
theorem turns (hS : Shift L L' F D') (hf : F.find? h = some f) {x y : Nat → Bool} :
    L'.Turns f.node x y ↔ L.Turns f.node x y := by
  rw [Layout.Turns, Layout.Turns, hS.overwrite? hf]

theorem loopKey? (hS : Shift L L' F D') (hf : F.find? h = some f) :
    L'.loopKey? f.node = L.loopKey? f.node := by
  rw [Layout.loopKey?, Layout.loopKey?, hS.core h f hf, hS.keyMask]

/-- The same places are met on the way up. -/
theorem meets (hS : Shift L L' F D') {key : UInt64} {o : Option Handle} (hm : Meets L F key o) :
    Meets L' F key o := by
  induction hm with
  | here hf hkey => exact .here hf ((hS.loopKey? hf).trans hkey)
  | above hf _ ih => exact .above hf ih

/-- **The forest is not touched**: pipes by which flows came stay. -/
theorem forest (hS : Shift L L' F D') (hF : Forest L F O) : Forest L' F O where
  depth := hF.depth
  children := hF.children
  listed := hF.listed
  root h f hf hp := by
    obtain ⟨hsource, hpipe, n, hn, hkind⟩ := hF.root h f hf hp
    exact ⟨hsource, hpipe, n, (hS.core h f hf).trans hn, hkind⟩
  came c g h f hg hp hf := by
    obtain ⟨hsource, fwd, w, hpipe, hw, hends⟩ := hF.came c g h f hg hp hf
    exact ⟨hsource, fwd, w, hpipe, hS.kept c g fwd w hg (by simp [hp]) hpipe hw, hends⟩
  leaves c g h f fwd w hg hp hf hpipe hw := by
    rcases hS.runs fwd w hw with hw | ⟨-, hnew⟩
    · exact hF.leaves c g h f fwd w hg hp hf hpipe hw
    · exact absurd hpipe (hnew c g hg (by simp [hp]))
  nodup := hF.nodup
  looped h f hf hl := by
    obtain ⟨key, hkey, hmeets⟩ := hF.looped h f hf hl
    exact ⟨key, (hS.loopKey? hf).trans hkey, hS.meets hmeets⟩

/-- A flow fits its node up to what is taken from it now. -/
theorem fits (hS : Shift L L' F D') (hf : F.find? h = some f) (hD : D ⊆ D') (hfits : Fits L D h f) :
    Fits L' D' h f := by
  refine ⟨fun hlooped hstale hok x y hx hnot hxy ↦ ?_, fun hstale how x hx ↦ ?_, hfits.looped⟩
  · refine hfits.lower hlooped (fun hmem ↦ hstale (hD hmem)) (fun w hw ↦ ?_) x y hx (fun ht ↦ ?_)
      ((hS.turns hf).1 hxy)
    · exact hok w ((hS.overwrite? hf).trans hw)
    · exact (hS.less h f x hf ht).elim hnot hstale
  · rw [hS.overwrite? hf] at how
    rcases hfits.upper (fun hmem ↦ hstale (hD hmem)) how x hx with ⟨hin, hnot⟩ | he
    · by_cases ht : L'.Taken f.node f.port x
      · rcases hS.more h f x hf ht with ht | ht | ht
        · exact absurd ht hnot
        · exact absurd ht hstale
        · exact .inr ht
      · exact .inl ⟨hin, ht⟩
    · exact .inr (hD he)

/-- **What flows owe after a change of the layout.** -/
theorem sound (hS : Shift L L' F D') (hD : D ⊆ D') (hs : Sound L F D) : Sound L' F D' where
  fits h f hf := hS.fits hf hD (hs.fits h f hf)
  passes c g h f fwd w hc hp hf hpipe hw := by
    rcases hS.runs fwd w hw with hw | ⟨-, hnew⟩
    · exact (hs.passes c g h f fwd w hc hp hf hpipe hw).mono (fun hmem ↦ hD hmem)
        fun _ hmem ↦ hD hmem
    · exact absurd hpipe (hnew c g hc (by simp [hp]))
  sent h f hf fwd w hw hsender hleaves hpending := by
    rcases hS.runs fwd w hw with hw | ⟨hnew, -⟩
    · exact hs.sent h f hf fwd w hw hsender hleaves fun hmem ↦ hpending (hD hmem)
    · exact absurd (hnew h f hf hsender.symm) hpending
  shaped h f hf := by
    obtain ⟨hinput, hprocessed, hheight⟩ := hs.shaped h f hf
    exact ⟨hinput, fun hp how ↦ hprocessed hp ((hS.overwrite? hf).symm.trans how), hheight⟩
  source := hs.source

end Shift

/-- **The invariant survives a change of the layout**, with what the flows owe then. -/
theorem Inv.shift (hI : Inv net O D) (hS : Shift net.layout net'.layout net.flows D') (hD : D ⊆ D')
    (hL : net'.layout.WellFormed) (hflows : net'.flows = net.flows)
    (hroster : net'.roster = net.roster) : Inv net' O D' := by
  refine ⟨hL, hflows ▸ hI.valid, hI.listed.congr hflows hroster, ?_, ?_⟩
  · rw [hflows]
    exact hS.forest hI.forest
  · rw [hflows]
    exact hS.sound hD hI.sound

/-! ### Between the steps of a change -/

/-- Nothing is excepted. -/
def nowhere : NodeKey → NodeKey → Link → Prop := fun _ _ _ ↦ False

/-- Nothing is excepted. -/
def nobody : NodeKey → NodeKey → Prop := fun _ _ ↦ False

/-- What holds of a network between any two steps of a change: the flows owe `D`, the influences in
`X` are about to go, pipes are missing only in `E` and influences only in `R`. -/
structure Upheld (net : Network) (D : Set Debt) (X : Set Handle)
    (E : NodeKey → NodeKey → Link → Prop) (R : NodeKey → NodeKey → Prop) : Prop where
  inv : Inv net ∅ D
  ordered : net.layout.Ordered X
  wired : net.layout.Wired E
  ranked : net.layout.Ranked R

/-- Nothing is owed, about to go or missing. -/
def AtRest (net : Network) : Prop := Upheld net ∅ ∅ nowhere nobody

variable {X : Set Handle} {E : NodeKey → NodeKey → Link → Prop} {R : NodeKey → NodeKey → Prop}

/-- **Propagation is only about what the flows owe.** -/
theorem Upheld.propagate (hU : Upheld net D X E R) (hI : Inv net' ∅ D')
    (hlayout : net'.layout = net.layout) : Upheld net' D' X E R :=
  ⟨hI, hlayout ▸ hU.ordered, hlayout ▸ hU.wired, hlayout ▸ hU.ranked⟩

end HeaderFlow
