import HeaderFlow.Proofs.Network.Shift
import HeaderFlow.Proofs.Region.Widening

/-!
# Widening a network

Widening touches every pattern of a network at once, and **no question that is asked of layouts and
flows has another answer afterwards**. So nothing is owed, and everything that is upheld is so
still.

## What stays

Patterns are widened by positions that are wild, so a widened pattern matches exactly the headers
that it matched before. Headers are functions on all positions, which is why nothing has to be said
of their length. From this:

* the wires that run are those from before with widened patterns (`runs_enlarge`), and the nodes
  accept the same;
* what influences take is the same (`taken_enlarge`);
* what a rule makes of a header is the same (`turns_enlarge`), because the new positions are not
  overwritten.

The rest goes part by part, along the definition of the invariant: layout, order, forest, and what
flows owe (`Sound.enlarge`). `Widens` collects what is known of a network and the widened one, and
`Widens.upheld` puts the parts together.
-/

namespace HeaderFlow

variable {L : Layout} {F : Arena Flow} {O : Set Handle} {D : Set Debt} {X : Set Handle}
  {E : NodeKey → NodeKey → Link → Prop} {R : NodeKey → NodeKey → Prop} {b : Nat} {key : NodeKey}
  {h fwd : Handle} {w w' : Wire} {port : Port} {x y : Nat → Bool} {net : Network}

/-- Grows what is overwritten; the new positions are not. -/
def Overwrite.enlarge (b : Nat) (w : Overwrite) : Overwrite :=
  ⟨w.mask.enlargeWith b .zero, w.value.enlarge b⟩

/-- Grows the patterns of a kind. -/
def Kind.enlarge (b : Nat) : Kind → Kind
  | .rule table index w => .rule table index (w.map (Overwrite.enlarge b))
  | .source => .source
  | .probe => .probe

/-- Grows all patterns of a node. -/
def Core.enlarge (b : Nat) (n : Core) : Core :=
  { n with
    kind := n.kind.enlarge b
    accepts := n.accepts.map fun p ↦ p.enlarge b
    sends := n.sends.enlarge b }

/-- Grows the pattern of a wire. -/
def Wire.enlarge (b : Nat) (w : Wire) : Wire := { w with pattern := w.pattern.enlarge b }

/-- Grows the pattern of one side of a pipe. -/
def Pipe.enlarge (b : Nat) (p : Pipe) : Pipe := { p with pattern := p.pattern.enlarge b }

/-- Grows the pattern of an influence. -/
def Influence.enlarge (b : Nat) (i : Influence) : Influence :=
  { i with common := i.common.enlarge b }

namespace Core

variable {n : Core}

/-- A node that is a rule after widening was one before, at the same place. -/
theorem kind_of_enlarge {table : TableId} {index : UInt32} {w : Option Overwrite}
    (hk : (n.enlarge b).kind = .rule table index w) : ∃ w', n.kind = .rule table index w' := by
  cases hkind : n.kind <;> simp_all [enlarge, Kind.enlarge]

/-- Nodes are found where they were. -/
theorem samePlace_enlarge : (n.enlarge b).SamePlace n where
  key := rfl
  id := rfl
  inPorts := rfl
  outPorts := rfl
  type := by cases hk : n.kind <;> simp [enlarge, Kind.enlarge, hk, Kind.type]
  rule _ _ := by cases hk : n.kind <;> simp [enlarge, Kind.enlarge, hk]

/-- Rules are rules. -/
theorem isRule_enlarge : (n.enlarge b).IsRule ↔ n.IsRule := by
  constructor
  · rintro ⟨table, index, w, hk⟩
    obtain ⟨w', hk'⟩ := kind_of_enlarge hk
    exact ⟨table, index, w', hk'⟩
  · rintro ⟨table, index, w, hk⟩
    exact ⟨table, index, w.map (Overwrite.enlarge b), by simp [enlarge, hk, Kind.enlarge]⟩

/-- What is accepted is what was. -/
theorem accepts_enlarge {p : Pattern} (hp : n.accepts = some p) :
    (n.enlarge b).accepts = some (p.enlarge b) := by simp [enlarge, hp]

/-- A widened node accepts a widened pattern. -/
theorem accepts_of_enlarge {p : Pattern} (hp : (n.enlarge b).accepts = some p) :
    ∃ q, n.accepts = some q ∧ p = q.enlarge b := by
  obtain ⟨q, hq, rfl⟩ := Option.map_eq_some_iff.1 hp
  exact ⟨q, hq, rfl⟩

/-- What a node must be like it is still like. -/
theorem Proper.enlarge (hn : n.Proper) : (n.enlarge b).Proper := by
  rw [Proper] at hn ⊢
  cases hk : n.kind with
  | rule table index w =>
    simp only [hk] at hn
    obtain ⟨hin, hout, p, hp, hsends⟩ := hn
    simp only [Core.enlarge, hk, Kind.enlarge]
    refine ⟨hin, hout, p.enlarge b, by simp [hp], ?_⟩
    cases w with
    | none =>
      intro x hx
      exact Pattern.matches_enlarge.2 (hsends x (Pattern.matches_enlarge.1 hx))
    | some w =>
      intro hc x y hx hxy
      exact Pattern.matches_enlarge.2 (hsends (Pattern.concrete_enlargeWith_zero.1 hc) x y
        (Pattern.matches_enlarge.1 hx) (Pattern.turns_enlarge.1 hxy))
  | source =>
    simp only [hk] at hn
    simp only [Core.enlarge, hk, Kind.enlarge]
    exact ⟨hn.1, hn.2.1, fun x ↦ Pattern.matches_enlarge.2 (hn.2.2 x)⟩
  | probe =>
    simp only [hk] at hn
    simp only [Core.enlarge, hk, Kind.enlarge]
    exact hn

end Core

namespace Layout

variable {n m : Core}

/-- Grows all patterns of a layout. -/
def enlarge (b : Nat) (L : Layout) : Layout :=
  { L with
    cores := L.cores.map (Core.enlarge b)
    pipes := L.pipes.map fun _ p ↦ p.enlarge b
    influences := L.influences.map fun _ i ↦ i.enlarge b }

theorem core?_enlarge : (L.enlarge b).core? key = (L.core? key).map (Core.enlarge b) := by
  rw [core?, core?, enlarge, List.find?_map]
  rfl

/-- A node of the widened layout is a widened node. -/
theorem core?_of_enlarge (hn : (L.enlarge b).core? key = some n) :
    ∃ m, L.core? key = some m ∧ n = m.enlarge b := by
  rw [core?_enlarge] at hn
  obtain ⟨m, hm, rfl⟩ := Option.map_eq_some_iff.1 hn
  exact ⟨m, hm, rfl⟩

theorem overwrite?_enlarge :
    (L.enlarge b).overwrite? key = (L.overwrite? key).map (Overwrite.enlarge b) := by
  rw [overwrite?, overwrite?, core?_enlarge]
  cases L.core? key with
  | none => rfl
  | some n =>
    simp only [Option.map_some, Core.enlarge]
    cases n.kind <;> rfl

/-- A rule counts as the same place, so no loop comes or goes. -/
theorem loopKey?_enlarge : (L.enlarge b).loopKey? key = L.loopKey? key := by
  rw [loopKey?, loopKey?, core?_enlarge]
  cases L.core? key with
  | none => rfl
  | some n =>
    simp only [Option.map_some, Core.enlarge]
    cases n.kind <;> rfl

/-- **The wires are those from before, up to their length.** -/
theorem runs_enlarge : (L.enlarge b).Runs fwd w' ↔ ∃ w, L.Runs fwd w ∧ w' = w.enlarge b := by
  simp only [Runs, enlarge, Arena.find?_map, Option.map_eq_some_iff]
  constructor
  · rintro ⟨_, _, ⟨a, ha, rfl⟩, ⟨c, hc, rfl⟩, hmem, rfl⟩
    exact ⟨_, ⟨a, c, ha, hc, hmem, rfl⟩, rfl⟩
  · rintro ⟨_, ⟨a, c, ha, hc, hmem, rfl⟩, rfl⟩
    exact ⟨_, _, ⟨a, ha, rfl⟩, ⟨c, hc, rfl⟩, hmem, rfl⟩

/-- **The same headers are taken.** -/
theorem taken_enlarge : (L.enlarge b).Taken key port x ↔ L.Taken key port x := by
  rw [Taken, Taken]
  refine and_congr ?_ (exists_congr fun k ↦ and_congr_right fun _ ↦ ?_)
  · constructor
    · rintro ⟨n, hn, hr⟩
      obtain ⟨m, hm, rfl⟩ := core?_of_enlarge hn
      exact ⟨m, hm, Core.isRule_enlarge.1 hr⟩
    · rintro ⟨n, hn, hr⟩
      exact ⟨n.enlarge b, by rw [core?_enlarge, hn]; rfl, Core.isRule_enlarge.2 hr⟩
  · simp only [enlarge, Arena.find?_map, Option.map_eq_some_iff, exists_exists_and_eq_and,
      Influence.enlarge, Pattern.matches_enlarge]

/-- **Headers turn into the same headers.** -/
theorem turns_enlarge : (L.enlarge b).Turns key x y ↔ L.Turns key x y := by
  rw [Turns, Turns, overwrite?_enlarge]
  cases L.overwrite? key with
  | none => rfl
  | some w => exact Pattern.turns_enlarge

/-- A pipe joins what it joined. -/
theorem Joins.enlarge {back : Handle} {a c : Pipe} (hj : L.Joins fwd back a c n m) :
    (L.enlarge b).Joins fwd back (a.enlarge b) (c.enlarge b) (n.enlarge b) (m.enlarge b) :=
  { hj with
    front := by rw [Layout.enlarge, Arena.find?_map, hj.front]; rfl
    rear := by rw [Layout.enlarge, Arena.find?_map, hj.rear]; rfl
    sender := by
      rw [core?_enlarge, show (a.enlarge b).node = a.node from rfl, hj.sender]
      rfl
    receiver := by
      rw [core?_enlarge, show (c.enlarge b).node = c.node from rfl, hj.receiver]
      rfl
    carries := by
      obtain ⟨p, hp, hx⟩ := hj.carries
      refine ⟨p.enlarge b, Core.accepts_enlarge hp, fun x ↦ ?_⟩
      simpa only [Pipe.enlarge, Core.enlarge, Pattern.matches_enlarge] using hx x }

/-- Nodes keep their keys. -/
theorem map_key_enlarge : (L.enlarge b).cores.map Core.key = L.cores.map Core.key := by
  rw [enlarge, List.map_map]
  rfl

/-- **Widening keeps a layout well formed.** -/
theorem WellFormed.enlarge (hL : L.WellFormed) : (L.enlarge b).WellFormed := by
  refine ⟨Arena.valid_map (k := fun _ ↦ Pipe.enlarge b) hL.pipes,
    by rw [map_key_enlarge]; exact hL.nodup,
    fun n hn ↦ ?_, fun n hn ↦ ?_, hL.found.map fun _ ↦ Core.samePlace_enlarge, hL.mirrored,
    fun key fwd hfwd ↦ ?_, fun key back hback ↦ ?_, hL.once, hL.apart⟩
  · obtain ⟨m, hm, rfl⟩ := List.mem_map.1 hn
    exact hL.fresh m hm
  · obtain ⟨m, hm, rfl⟩ := List.mem_map.1 hn
    exact (hL.proper m hm).enlarge
  · obtain ⟨back, a, c, n, m, hj, hkey⟩ := hL.next key fwd hfwd
    exact ⟨back, _, _, _, _, hj.enlarge, hkey⟩
  · obtain ⟨fwd, a, c, n, m, hj, hkey⟩ := hL.prev key back hback
    exact ⟨fwd, _, _, _, _, hj.enlarge, hkey⟩

/-- No pipe is missing that was there: nodes have headers in common if they had before. -/
theorem Wired.enlarge (hw : L.Wired E) : (L.enlarge b).Wired E := by
  intro n' hn' m' hm' q hq p hp hl hnot a' x ha' hax hnx
  obtain ⟨n, hn, rfl⟩ := List.mem_map.1 hn'
  obtain ⟨m, hm, rfl⟩ := List.mem_map.1 hm'
  obtain ⟨a, ha, rfl⟩ := Core.accepts_of_enlarge ha'
  obtain ⟨fwd, w, hrun, hends⟩ := hw n hn m hm q hq p hp hl hnot a x ha
    (Pattern.matches_enlarge.1 hax) (Pattern.matches_enlarge.1 hnx)
  exact ⟨fwd, w.enlarge b, runs_enlarge.2 ⟨w, hrun, rfl⟩, hends⟩

/-- An influence ranks the rules that it ranked. -/
theorem Ranks.enlarge {k : Handle} {i : Influence} (hr : L.Ranks k i m n) :
    (L.enlarge b).Ranks k (i.enlarge b) (m.enlarge b) (n.enlarge b) := by
  obtain ⟨table, place, place', w, w', hm, hn, hlt⟩ := hr.order
  obtain ⟨p, q, hp, hq, hx⟩ := hr.common
  refine { hr with
    influencer := ?_, influenced := ?_, order := ?_, common := ?_ }
  · rw [core?_enlarge, show (i.enlarge b).influencer = i.influencer from rfl, hr.influencer]
    rfl
  · rw [core?_enlarge, show (i.enlarge b).influenced = i.influenced from rfl, hr.influenced]
    rfl
  · exact ⟨table, place, place', w.map (Overwrite.enlarge b), w'.map (Overwrite.enlarge b),
      by simp [Core.enlarge, hm, Kind.enlarge], by simp [Core.enlarge, hn, Kind.enlarge], hlt⟩
  · refine ⟨_, _, Core.accepts_enlarge hp, Core.accepts_enlarge hq, fun x ↦ ?_⟩
    simpa only [Influence.enlarge, Pattern.matches_enlarge] using hx x

/-- Influences stay in order. -/
theorem Ordered.enlarge (ho : L.Ordered X) : (L.enlarge b).Ordered X := by
  have hfind : ∀ {k i}, L.influences.find? k = some i →
      (L.enlarge b).influences.find? k = some (i.enlarge b) := by
    intro k i hi
    rw [Layout.enlarge, Arena.find?_map, hi]
    rfl
  refine ⟨Arena.valid_map (k := fun _ ↦ Influence.enlarge b) ho.influences,
    fun key k hk ↦ ?_, fun key k hk ↦ ?_, ?_⟩
  · obtain ⟨i, hi, hkey, hr⟩ := ho.lost key k hk
    exact ⟨i.enlarge b, hfind hi, hkey, fun hX ↦ by
      obtain ⟨m, n, hr⟩ := hr hX
      exact ⟨_, _, hr.enlarge⟩⟩
  · obtain ⟨i, hi, hkey, hr⟩ := ho.won key k hk
    exact ⟨i.enlarge b, hfind hi, hkey, fun hX ↦ by
      obtain ⟨m, n, hr⟩ := hr hX
      exact ⟨_, _, hr.enlarge⟩⟩
  · intro n' hn' m' hm' table index w w' hkn hkm
    obtain ⟨n, hn, rfl⟩ := List.mem_map.1 hn'
    obtain ⟨m, hm, rfl⟩ := List.mem_map.1 hm'
    obtain ⟨_, hkn⟩ := Core.kind_of_enlarge hkn
    obtain ⟨_, hkm⟩ := Core.kind_of_enlarge hkm
    rw [ho.place n hn m hm table index _ _ hkn hkm]

/-- No influence is missing that was there. -/
theorem Ranked.enlarge (hr : L.Ranked R) : (L.enlarge b).Ranked R := by
  intro n' hn' m' hm' table place place' w w' hkn hkm hlt hnot port hport hport' p' q' x hp'
    hq' hpx hqx
  obtain ⟨n, hn, rfl⟩ := List.mem_map.1 hn'
  obtain ⟨m, hm, rfl⟩ := List.mem_map.1 hm'
  obtain ⟨_, hkn⟩ := Core.kind_of_enlarge hkn
  obtain ⟨_, hkm⟩ := Core.kind_of_enlarge hkm
  obtain ⟨p, hp, rfl⟩ := Core.accepts_of_enlarge hp'
  obtain ⟨q, hq, rfl⟩ := Core.accepts_of_enlarge hq'
  obtain ⟨k, hk, i, hi, hinfluencer⟩ := hr n hn m hm table place place' _ _ hkn hkm hlt hnot port
    hport hport' p q x hp hq (Pattern.matches_enlarge.1 hpx) (Pattern.matches_enlarge.1 hqx)
  refine ⟨k, hk, i.enlarge b, ?_, hinfluencer⟩
  rw [Layout.enlarge, Arena.find?_map, hi]
  rfl

end Layout

/-! ### Flows -/

namespace Flow

variable {f : Flow}

/-- Grows the spaces of a flow. -/
abbrev enlarge (b : Nat) (f : Flow) : Flow := Network.enlargeFlow b f

/-- A flow sends the headers that it sent. -/
theorem sends_enlarge : (f.enlarge b).Sends x ↔ f.Sends x := by
  rw [Sends, Sends]
  cases hp : f.processed with
  | none => simp [enlarge, Network.enlargeFlow, hp]
  | some s => simp [enlarge, Network.enlargeFlow, hp]

/-- A flow got the headers that it got. -/
theorem input_enlarge : (f.enlarge b).input.Contains x ↔ f.input.Contains x :=
  Space.contains_enlarge

end Flow

/-- Grows the spaces of all flows. -/
abbrev enlargeAll (b : Nat) (F : Arena Flow) : Arena Flow := F.map fun _ f ↦ f.enlarge b

theorem find?_enlargeAll {f' : Flow} :
    (enlargeAll b F).find? h = some f' ↔ ∃ f, F.find? h = some f ∧ f' = f.enlarge b := by
  rw [enlargeAll, Arena.find?_map, Option.map_eq_some_iff]
  simp only [eq_comm]

/-- Ways are not widened. -/
theorem carries_enlargeAll : Carries (fun _ ↦ True) F (enlargeAll b F) := fun _ f _ hf ↦
  ⟨⟨f.enlarge b, find?_enlargeAll.2 ⟨f, hf, rfl⟩, rfl⟩, fun _ _ ↦ trivial⟩

/-- The forest is the one that there was. -/
theorem Forest.enlarge (hF : Forest L F O) : Forest (L.enlarge b) (enlargeAll b F) O := by
  have hmeets : ∀ {place : UInt64} {o : Option Handle}, Meets L F place o →
      Meets (L.enlarge b) (enlargeAll b F) place o := by
    intro place o hm
    induction hm with
    | here hf hkey =>
      exact .here (find?_enlargeAll.2 ⟨_, hf, rfl⟩) (Layout.loopKey?_enlarge.trans hkey)
    | above hf _ ih => exact .above (find?_enlargeAll.2 ⟨_, hf, rfl⟩) ih
  refine ⟨fun h f' hf' ↦ ?_, fun h f' c hf' hc ↦ ?_, fun c g' h f' hg' hcO hp hf' ↦ ?_,
    fun h f' hf' hp ↦ ?_, fun c g' h f' hg' hp hf' ↦ ?_, fun h f' hf' hl ↦ ?_,
    fun c g' h f' fwd w' hg' hp hf' hpipe hw' ↦ ?_, fun h f' hf' ↦ ?_⟩
  · obtain ⟨f, hf, rfl⟩ := find?_enlargeAll.1 hf'
    obtain ⟨d, hd⟩ := hF.depth h f hf
    exact ⟨d, hd.transport carries_enlargeAll trivial⟩
  · obtain ⟨f, hf, rfl⟩ := find?_enlargeAll.1 hf'
    obtain ⟨g, hg, hp⟩ := hF.children h f c hf hc
    exact ⟨g.enlarge b, find?_enlargeAll.2 ⟨g, hg, rfl⟩, hp⟩
  · obtain ⟨g, hg, rfl⟩ := find?_enlargeAll.1 hg'
    obtain ⟨f, hf, rfl⟩ := find?_enlargeAll.1 hf'
    exact hF.listed c g h f hg hcO hp hf
  · obtain ⟨f, hf, rfl⟩ := find?_enlargeAll.1 hf'
    obtain ⟨hsource, hpipe, n, hn, hkind⟩ := hF.root h f hf hp
    refine ⟨hsource, hpipe, n.enlarge b, ?_, by simp [Core.enlarge, hkind, Kind.enlarge]⟩
    rw [Layout.core?_enlarge, show (f.enlarge b).node = f.node from rfl, hn]
    rfl
  · obtain ⟨g, hg, rfl⟩ := find?_enlargeAll.1 hg'
    obtain ⟨f, hf, rfl⟩ := find?_enlargeAll.1 hf'
    obtain ⟨hsource, fwd, w, hpipe, hw, hends⟩ := hF.came c g h f hg hp hf
    exact ⟨hsource, fwd, w.enlarge b, hpipe, Layout.runs_enlarge.2 ⟨w, hw, rfl⟩, hends⟩
  · obtain ⟨f, hf, rfl⟩ := find?_enlargeAll.1 hf'
    obtain ⟨key, hkey, hm⟩ := hF.looped h f hf hl
    exact ⟨key, Layout.loopKey?_enlarge.trans hkey, hmeets hm⟩
  · obtain ⟨g, hg, rfl⟩ := find?_enlargeAll.1 hg'
    obtain ⟨f, hf, rfl⟩ := find?_enlargeAll.1 hf'
    obtain ⟨w, hw, rfl⟩ := Layout.runs_enlarge.1 hw'
    exact hF.leaves c g h f fwd w hg hp hf hpipe hw
  · obtain ⟨f, hf, rfl⟩ := find?_enlargeAll.1 hf'
    exact hF.nodup h f hf

/-- What a flow sends fits what it got, and what its rule makes of it. -/
theorem Fits.enlarge {f : Flow} (hfits : Fits L D h f) : Fits (L.enlarge b) D h (f.enlarge b) := by
  refine ⟨fun hlooped hstale hok x y hx hnot hxy ↦ ?_, fun hstale how x hx ↦ ?_, fun hlooped ↦ ?_⟩
  · refine Flow.sends_enlarge.2 (hfits.lower hlooped hstale (fun w hw ↦ ?_) x y
      (Flow.input_enlarge.1 hx) (fun ht ↦ hnot (Layout.taken_enlarge.2 ht))
        (Layout.turns_enlarge.1 hxy))
    obtain ⟨hc, hheight⟩ := hok (w.enlarge b) (by
      rw [Layout.overwrite?_enlarge, show (f.enlarge b).node = f.node from rfl, hw]
      rfl)
    exact ⟨Pattern.concrete_enlargeWith_zero.1 hc, Space.heightList_enlarge ▸ hheight⟩
  · rw [Layout.overwrite?_enlarge, Option.map_eq_none_iff] at how
    rw [Flow.input_enlarge, Layout.taken_enlarge]
    exact hfits.upper hstale how x (Flow.sends_enlarge.1 hx)
  · simp [Flow.enlarge, Network.enlargeFlow, hfits.looped hlooped]

/-- The heights of spaces are not changed. -/
theorem Shaped.enlarge {f : Flow} (hs : Shaped L F f) :
    Shaped (L.enlarge b) (enlargeAll b F) (f.enlarge b) := by
  refine ⟨fun hp ↦ ?_, fun hp how s' hs' ↦ ?_, fun r' hr' hrp ↦ ?_⟩
  · obtain ⟨n, hn⟩ := hs.input hp
    exact Space.trim_enlarge hn
  · rw [Layout.overwrite?_enlarge, Option.map_eq_none_iff] at how
    obtain ⟨s, hsome, rfl⟩ := Option.map_eq_some_iff.1 hs'
    obtain ⟨n, htrim, hnormal⟩ := hs.processed hp how s hsome
    exact (Space.trim_enlarge htrim).imp fun _ hm ↦ ⟨hm, hnormal.enlarge htrim.bytes b⟩
  · obtain ⟨r, hr, rfl⟩ := find?_enlargeAll.1 hr'
    obtain ⟨hinput, hprocessed⟩ := hs.height r hr hrp
    refine ⟨?_, fun s' hs' ↦ ?_⟩
    · simpa only [Flow.enlarge, Network.enlargeFlow, Space.heightList_enlarge] using hinput
    · obtain ⟨s, hsome, rfl⟩ := Option.map_eq_some_iff.1 hs'
      simpa only [Flow.enlarge, Network.enlargeFlow, Space.heightList_enlarge]
        using hprocessed s hsome

/-- **What flows owe stays what it is.** -/
theorem Sound.enlarge (hs : Sound L F D) : Sound (L.enlarge b) (enlargeAll b F) D := by
  refine ⟨fun h f' hf' ↦ ?_, fun c g' h f' fwd w' hg' hp hf' hpipe hw' ↦ ?_,
    fun h f' hf' fwd w' hw' hsender hleaves hpending ↦ ?_, fun h f' hf' ↦ ?_, fun h f' hf' hp ↦ ?_⟩
  · obtain ⟨f, hf, rfl⟩ := find?_enlargeAll.1 hf'
    exact (hs.fits h f hf).enlarge
  · obtain ⟨g, hg, rfl⟩ := find?_enlargeAll.1 hg'
    obtain ⟨f, hf, rfl⟩ := find?_enlargeAll.1 hf'
    obtain ⟨w, hw, rfl⟩ := Layout.runs_enlarge.1 hw'
    have hpasses := hs.passes c g h f fwd w hg hp hf hpipe hw
    refine ⟨fun hl ↦ ?_, fun hl x hx hm ↦ ?_, fun hl x hx ↦ ?_⟩
    · simpa [Flow.enlarge, Network.enlargeFlow] using hpasses.alive hl
    · exact Flow.input_enlarge.2 (hpasses.lower hl x (Flow.sends_enlarge.1 hx)
        (Pattern.matches_enlarge.1 hm))
    · rw [Flow.sends_enlarge, Wire.enlarge, Pattern.matches_enlarge]
      exact hpasses.upper hl x (Flow.input_enlarge.1 hx)
  · obtain ⟨f, hf, rfl⟩ := find?_enlargeAll.1 hf'
    obtain ⟨w, hw, rfl⟩ := Layout.runs_enlarge.1 hw'
    rcases hs.sent h f hf fwd w hw hsender hleaves hpending with ⟨c, g, hg, hp, hpipe⟩ | hnone
    · exact .inl ⟨c, g.enlarge b, find?_enlargeAll.2 ⟨g, hg, rfl⟩, hp, hpipe⟩
    · exact .inr fun x hx hm ↦ hnone x (Flow.sends_enlarge.1 hx) (Pattern.matches_enlarge.1 hm)
  · obtain ⟨f, hf, rfl⟩ := find?_enlargeAll.1 hf'
    exact (hs.shaped h f hf).enlarge
  · obtain ⟨f, hf, rfl⟩ := find?_enlargeAll.1 hf'
    obtain ⟨hprocessed, hlooped⟩ := hs.source h f hf hp
    exact ⟨by simp [Flow.enlarge, Network.enlargeFlow, hprocessed], hlooped⟩

/-! ### The network -/

namespace Node

variable {n : Node}

theorem core_enlarge : (n.enlarge b).core = n.core.enlarge b := by
  cases hr : n.role with
  | rule r =>
    simp only [Node.enlarge, Node.core, Core.enlarge, Role.kind, Kind.enlarge, hr]
    rfl
  | source => simp [Node.enlarge, Node.core, Core.enlarge, Role.kind, Kind.enlarge, hr]
  | probe p => simp [Node.enlarge, Node.core, Core.enlarge, Role.kind, Kind.enlarge, hr]

theorem lost_enlarge : (n.enlarge b).lost = n.lost := by
  cases hr : n.role <;> simp [Node.enlarge, Node.lost, Node.rule?, hr]

theorem won_enlarge : (n.enlarge b).won = n.won := by
  cases hr : n.role <;> simp [Node.enlarge, Node.won, Node.rule?, hr]

end Node

namespace Network

variable {net' : Network}

/-- The networks differ at most in their lengths. -/
structure Widens (b : Nat) (net net' : Network) : Prop where
  nodes : net'.nodes = net.nodes.map (Node.enlarge b)
  registry : net'.registry = net.registry
  topology : net'.topology = net.topology
  pipes : net'.pipes = net.pipes.map fun _ p ↦ p.enlarge b
  influences : net'.influences = net.influences.map fun _ i ↦ i.enlarge b
  flows : net'.flows = enlargeAll b net.flows
  settings : net'.settings = net.settings
  nextKey : net'.nextKey = net.nextKey

theorem Widens.tied {list : Node → List Handle} (hw : Widens b net net')
    (hlist : ∀ n : Node, list (n.enlarge b) = list n) : net'.tied list = net.tied list := by
  funext key
  rw [Network.tied, Network.tied, nodeAt?, nodeAt?, hw.nodes, List.find?_map]
  have hkey : ((fun n : Node ↦ n.key == key) ∘ Node.enlarge b) = fun n ↦ n.key == key := rfl
  rw [hkey]
  cases List.find? (fun n : Node ↦ n.key == key) net.nodes with
  | none => rfl
  | some n => exact hlist n

/-- The layout of the widened network is the widened layout. -/
theorem Widens.layout (hw : Widens b net net') : net'.layout = net.layout.enlarge b := by
  have hcores : net'.nodes.map Node.core = (net.nodes.map Node.core).map (Core.enlarge b) := by
    rw [hw.nodes, List.map_map, List.map_map]
    exact List.map_congr_left fun n _ ↦ Node.core_enlarge
  rw [Network.layout, hw.tied fun _ ↦ rfl, hw.tied fun _ ↦ rfl, hw.tied fun _ ↦ Node.lost_enlarge,
    hw.tied fun _ ↦ Node.won_enlarge, hcores, hw.registry, hw.topology, hw.pipes, hw.influences,
    hw.settings, hw.nextKey]
  rfl

/-- **Widening upholds everything.** -/
theorem Widens.upheld (hw : Widens b net net') (hU : Upheld net D X E R) : Upheld net' D X E R := by
  have hlisted : Listed net' ∅ := by
    have hroster : net'.roster = net.roster := hw.tied fun _ ↦ rfl
    refine ⟨fun h f' hf' hh ↦ ?_, fun key h hh ↦ ?_, fun key ↦ hroster ▸ hU.inv.listed.nodup key⟩
    · rw [hw.flows] at hf'
      obtain ⟨f, hf, rfl⟩ := find?_enlargeAll.1 hf'
      exact hroster ▸ hU.inv.listed.all h f hf hh
    · obtain ⟨f, hf, hnode⟩ := hU.inv.listed.only key h (hroster ▸ hh)
      exact ⟨f.enlarge b, by rw [hw.flows]; exact find?_enlargeAll.2 ⟨f, hf, rfl⟩, hnode⟩
  have hlayout := hw.layout
  refine ⟨⟨hlayout ▸ hU.inv.layout.enlarge, hw.flows ▸ Arena.valid_map hU.inv.valid,
    hlisted, ?_, ?_⟩, hlayout ▸ hU.ordered.enlarge, hlayout ▸ hU.wired.enlarge,
    hlayout ▸ hU.ranked.enlarge⟩
  · rw [hlayout, hw.flows]
    exact hU.inv.forest.enlarge
  · rw [hlayout, hw.flows]
    exact hU.inv.sound.enlarge

end Network

end HeaderFlow
