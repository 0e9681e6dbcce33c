import HeaderFlow.Network.Mutation
import HeaderFlow.Proofs.Checked

/-!
# Which faults an operation can have

Patterns, regions and spaces can be combined if they have one width, and that is all that is asked
of them: **a fault of theirs is a fault of widths** (`Fault.IsWidth`), however deep it arises. So it
is with conditions, which compare spaces. What a network is asked can also fail because something is
not there, but not because of a count (`Fault.NotCount`). A fault of a count comes from a probe
alone.

That a computation has only certain faults is closed under everything computations are composed of,
so each operation takes one line for each of its parts.

Nothing is assumed of what goes in. So this does not say that operations succeed, but what it means
if one does not, and holds as well of networks that no change leads to. What is gained is that two
kinds of faults can be excluded separately: those of widths where everything has one length, and
those of counts where probes are solvent.
-/

namespace HeaderFlow

/-- Two operands have different widths. -/
def Fault.IsWidth : Fault → Prop
  | .widthMismatch .. => True
  | _ => False

/-- It is not that a probe was told to give up a flow although none was counted. -/
def Fault.NotCount (f : Fault) : Prop := f ≠ .countUnderflow

namespace Checked

variable {α β : Type} {P Q : Fault → Prop} {x : Checked α}

/-- If the computation breaks a precondition, the fault has the property. -/
def Faults (P : Fault → Prop) (x : Checked α) : Prop := ∀ f, x = .error f → P f

theorem faults_ok {a : α} : Faults P (.ok a : Checked α) := fun _ h ↦ nomatch h

theorem faults_error {f : Fault} (hf : P f) : Faults P (.error f : Checked α) := fun _ h ↦
  Except.error.inj h ▸ hf

/-- More faults are allowed. -/
theorem Faults.mono (hx : Faults P x) (hPQ : ∀ f, P f → Q f) : Faults Q x :=
  fun f hf ↦ hPQ f (hx f hf)

/-- The next step may use that the first one has succeeded. -/
theorem Faults.bind_of {k : α → Checked β} (hx : Faults P x)
    (hk : ∀ a, x = .ok a → Faults P (k a)) : Faults P (x >>= k) := by
  cases x with
  | error f => exact faults_error (hx f rfl)
  | ok a => exact hk a rfl

/-- **A sequence has the faults of its parts.** -/
theorem Faults.bind {k : α → Checked β} (hx : Faults P x) (hk : ∀ a, Faults P (k a)) :
    Faults P (x >>= k) := hx.bind_of fun a _ ↦ hk a

/-- Changing an answer has no fault. -/
theorem Faults.map {k : α → β} (hx : Faults P x) : Faults P (Except.map k x) := by
  cases x with
  | error f => exact faults_error (hx f rfl)
  | ok a => exact faults_ok

/-- A mapping has the faults of its steps. -/
theorem faults_mapM {k : α → Checked β} (hk : ∀ a, Faults P (k a)) (l : List α) :
    Faults P (l.mapM k) := by
  induction l with
  | nil => exact faults_ok
  | cons a l ih =>
    rw [List.mapM_cons]
    exact (hk a).bind fun _ ↦ ih.bind fun _ ↦ faults_ok

/-- A fault of widths is none of a count. -/
theorem Faults.notCount (hx : Faults Fault.IsWidth x) : Faults Fault.NotCount x :=
  hx.mono fun f hf hcount ↦ by
    subst hcount
    exact hf

end Checked

open Checked

/-! ### Patterns

Only the check of widths has a fault; all else is built on it. -/

namespace Pattern

theorem faults_checkWidth (a b : Pattern) : Faults Fault.IsWidth (a.checkWidth b) := by
  rw [checkWidth]
  split
  · exact faults_ok
  · exact faults_error trivial

theorem faults_intersect (a b : Pattern) : Faults Fault.IsWidth (a.intersect b) :=
  (faults_checkWidth a b).map

theorem faults_isSubset (a b : Pattern) : Faults Fault.IsWidth (a.isSubset b) :=
  (faults_checkWidth a b).map

theorem faults_pairing (a b : Pattern) (mask : Option Pattern) :
    Faults Fault.IsWidth (a.pairing b mask) :=
  (faults_checkWidth a b).map

theorem faults_overwrite (p mask value : Pattern) : Faults Fault.IsWidth (p.overwrite mask value) :=
  (faults_checkWidth p mask).bind fun _ ↦ (faults_checkWidth p value).bind fun _ ↦ faults_ok

theorem faults_subtractBit (p d : Pattern) : Faults Fault.IsWidth (p.subtractBit d) :=
  (faults_checkWidth p d).map

theorem faults_sift (v : Pattern) (mask : Option Pattern) :
    ∀ accepted : List Pattern, Faults Fault.IsWidth (sift v mask accepted)
  | [] => faults_ok
  | a :: rest => by
    refine (faults_pairing a v mask).bind fun paired ↦ ?_
    split
    · exact faults_ok
    · exact faults_ok
    · exact faults_sift v mask rest
    · exact (faults_sift v mask rest).bind fun _ ↦ faults_ok
    · exact faults_ok

theorem faults_condenseQueue (mask : Option Pattern) :
    ∀ (steps : Nat) (queue accepted : List Pattern),
    Faults Fault.IsWidth (condenseQueue mask steps queue accepted)
  | 0, _, _ => faults_ok
  | _ + 1, [], _ => faults_ok
  | steps + 1, v :: _, accepted =>
    (faults_sift v mask accepted).bind fun _ ↦ faults_condenseQueue mask steps _ _

theorem faults_condense (mask : Option Pattern) (input : List Pattern) :
    Faults Fault.IsWidth (condense mask input) := faults_condenseQueue mask _ _ _

end Pattern

/-! ### Regions -/

namespace Region

mutual

theorem faults_clip : ∀ (r : Region) (v : Pattern), Faults Fault.IsWidth (r.clip v)
  | mk f hs, v => by
    rw [clip]
    refine (f.faults_intersect v).bind fun o ↦ ?_
    split
    · exact faults_ok
    · exact (faults_clipList hs _).bind fun _ ↦ faults_ok

theorem faults_clipList : ∀ (rs : List Region) (v : Pattern), Faults Fault.IsWidth (clipList rs v)
  | [], _ => by
    rw [clipList]
    exact faults_ok
  | r :: rs, v => by
    rw [clipList]
    exact (faults_clip r v).bind fun _ ↦ (faults_clipList rs v).bind fun _ ↦ faults_ok

end

theorem faults_intersect (a b : Region) : Faults Fault.IsWidth (a.intersect b) := by
  refine (a.frame.faults_intersect b.frame).bind fun o ↦ ?_
  split
  · exact faults_ok
  · exact (faults_clipList _ _).bind fun _ ↦ faults_ok

mutual

theorem faults_overwrite : ∀ (r : Region) (mask value : Pattern),
    Faults Fault.IsWidth (r.overwrite mask value)
  | mk f hs, mask, value => by
    rw [overwrite]
    exact (f.faults_overwrite mask value).bind fun o ↦
      (faults_overwriteList hs mask value o.lost).bind fun _ ↦ faults_ok

theorem faults_overwriteList : ∀ (rs : List Region) (mask value : Pattern) (lost : Nat),
    Faults Fault.IsWidth (overwriteList rs mask value lost)
  | [], _, _, _ => by
    rw [overwriteList]
    exact faults_ok
  | r :: rs, mask, value, lost => by
    rw [overwriteList]
    exact (faults_overwrite r mask value).bind fun _ ↦
      (faults_overwriteList rs mask value lost).bind fun _ ↦ faults_ok

end

theorem faults_condensePlain (mask : Option Pattern) (rs : List Region) :
    Faults Fault.IsWidth (condensePlain mask rs) := by
  rw [condensePlain]
  split
  · exact faults_ok
  · exact (Pattern.faults_condense mask _).map

variable {compact step : Region → Checked (Option Region)}

theorem faults_compactEach (hcompact : ∀ r, Faults Fault.IsWidth (compact r)) :
    ∀ rs : List Region, Faults Fault.IsWidth (compactEach compact rs)
  | [] => faults_ok
  | r :: rs => (hcompact r).bind fun _ ↦ (faults_compactEach hcompact rs).bind fun _ ↦ faults_ok

theorem faults_firstTight (f : Pattern) :
    ∀ hs : List Region, Faults Fault.IsWidth (firstTight f hs)
  | [] => faults_ok
  | h :: hs => by
    rw [firstTight]
    split
    · refine (f.faults_subtractBit h.frame).bind fun n ↦ ?_
      split
      · exact faults_ok
      · exact (faults_firstTight f hs).bind fun _ ↦ faults_ok
    · exact (faults_firstTight f hs).bind fun _ ↦ faults_ok

theorem faults_bite : ∀ (steps : Nat) (f : Pattern) (hs : List Region),
    Faults Fault.IsWidth (bite steps f hs)
  | 0, _, _ => faults_ok
  | steps + 1, f, hs => by
    refine (faults_firstTight f hs).bind fun o ↦ ?_
    split
    · exact faults_ok
    · split
      · exact faults_ok
      · exact (faults_clipList _ _).bind fun _ ↦ faults_bite steps _ _

theorem faults_round (mask : Option Pattern) (hcompact : ∀ r, Faults Fault.IsWidth (compact r))
    (r : Region) : Faults Fault.IsWidth (round mask compact r) :=
  (faults_condensePlain mask _).bind fun _ ↦ (faults_compactEach hcompact _).bind fun _ ↦
    faults_bite _ _ _

theorem faults_settle (hstep : ∀ r, Faults Fault.IsWidth (step r)) :
    ∀ (rounds : Nat) (r : Region), Faults Fault.IsWidth (settle step rounds r)
  | 0, _ => faults_ok
  | rounds + 1, r => by
    refine (hstep r).bind fun o ↦ ?_
    split
    · exact faults_ok
    · split
      · exact faults_ok
      · exact faults_settle hstep rounds _

theorem faults_compactAt (mask : Option Pattern) : ∀ (height : Nat) (r : Region),
    Faults Fault.IsWidth (compactAt mask height r)
  | 0, _ => faults_ok
  | height + 1, r => faults_settle (faults_round mask (faults_compactAt mask height)) _ r

theorem faults_compact (mask : Option Pattern) (r : Region) :
    Faults Fault.IsWidth (r.compact mask) := faults_compactAt mask _ r

end Region

/-! ### Spaces -/

namespace Space

theorem faults_checkBytes (s : Space) (bytes : Nat) :
    Faults Fault.IsWidth (s.checkBytes bytes) := by
  rw [checkBytes]
  split
  · exact faults_ok
  · exact faults_error trivial

theorem faults_addPattern (s : Space) (p : Pattern) : Faults Fault.IsWidth (s.addPattern p) :=
  (s.faults_checkBytes p.bytes).map

theorem faults_intersectEach (r : Region) :
    ∀ qs : List Region, Faults Fault.IsWidth (intersectEach r qs)
  | [] => faults_ok
  | q :: qs => (r.faults_intersect q).bind fun _ ↦
    (faults_intersectEach r qs).bind fun _ ↦ faults_ok

theorem faults_intersectAll : ∀ rs qs : List Region, Faults Fault.IsWidth (intersectAll rs qs)
  | [], _ => faults_ok
  | r :: rs, qs =>
    (faults_intersectEach r qs).bind fun _ ↦ (faults_intersectAll rs qs).bind fun _ ↦ faults_ok

theorem faults_intersect (s t : Space) : Faults Fault.IsWidth (s.intersect t) :=
  (s.faults_checkBytes t.bytes).bind fun _ ↦ (faults_intersectAll _ _).bind fun _ ↦ faults_ok

theorem faults_clip (s : Space) (p : Pattern) : Faults Fault.IsWidth (s.clip p) :=
  (Region.faults_clipList _ _).bind fun _ ↦ faults_ok

theorem faults_punch (p : Pattern) (r : Region) : Faults Fault.IsWidth (punch p r) := by
  refine (r.frame.faults_intersect p).bind fun o ↦ ?_
  split
  · exact faults_ok
  · exact faults_ok

theorem faults_cut (s : Space) (p : Pattern) : Faults Fault.IsWidth (s.cut p) :=
  (faults_mapM (faults_punch p) _).bind fun _ ↦ faults_ok

theorem faults_compact (mask : Option Pattern) (s : Space) :
    Faults Fault.IsWidth (s.compact mask) :=
  (Region.faults_compactEach (Region.faults_compact mask) _).bind fun _ ↦ faults_ok

theorem faults_complementFrom (acc : Space) :
    ∀ rs : List Region, Faults Fault.IsWidth (complementFrom acc rs)
  | [] => faults_ok
  | r :: rs => by
    rw [complementFrom]
    split
    · exact faults_ok
    · refine (acc.faults_intersect _).bind fun _ ↦ (faults_compact none _).bind fun next ↦ ?_
      split
      · exact faults_ok
      · exact faults_complementFrom next rs

theorem faults_complement (s : Space) : Faults Fault.IsWidth s.complement := by
  rw [complement]
  split
  · exact faults_ok
  · dsimp only
    split
    · exact faults_ok
    · refine (faults_compact none _).bind fun first ↦ ?_
      split
      · exact faults_ok
      · exact faults_complementFrom first _

theorem faults_minus (s t : Space) : Faults Fault.IsWidth (s.minus t) :=
  (faults_complement t).bind fun _ ↦ (s.faults_intersect _).bind fun _ ↦ faults_compact none _

theorem faults_overwrite (s : Space) (mask value : Pattern) :
    Faults Fault.IsWidth (s.overwrite mask value) :=
  (faults_mapM (fun r ↦ (r.faults_overwrite mask value).bind fun _ ↦ faults_ok) _).bind
    fun _ ↦ faults_ok

theorem faults_cutHoles (bytes : Nat) (acc : Space) :
    ∀ hs : List Region, Faults Fault.IsWidth (cutHoles bytes acc hs)
  | [] => faults_ok
  | h :: hs => by
    refine (faults_complement _).bind fun _ ↦ (acc.faults_intersect _).bind fun next ↦ ?_
    split
    · exact faults_ok
    · exact faults_cutHoles bytes next hs

theorem faults_unrollRegion (bytes : Nat) (r : Region) :
    Faults Fault.IsWidth (unrollRegion bytes r) := by
  rw [unrollRegion]
  split
  · exact faults_ok
  · exact (faults_cutHoles bytes _ _).map

theorem faults_unrollOnce (bytes : Nat) :
    ∀ rs : List Region, Faults Fault.IsWidth (unrollOnce bytes rs)
  | [] => faults_ok
  | r :: rs =>
    (faults_unrollRegion bytes r).bind fun _ ↦ (faults_unrollOnce bytes rs).bind fun _ ↦ faults_ok

theorem faults_unrollTimes (bytes : Nat) : ∀ (passes : Nat) (rs : List Region),
    Faults Fault.IsWidth (unrollTimes bytes passes rs)
  | 0, _ => faults_ok
  | passes + 1, rs => by
    rw [unrollTimes]
    split
    · exact faults_ok
    · exact (faults_unrollOnce bytes rs).bind fun _ ↦ faults_unrollTimes bytes passes _

theorem faults_unroll (s : Space) : Faults Fault.IsWidth s.unroll :=
  (faults_unrollTimes _ _ _).bind fun _ ↦ faults_ok

theorem faults_isSubset (s t : Space) : Faults Fault.IsWidth (s.isSubset t) := by
  rw [isSubset]
  split
  · exact faults_ok
  · exact (faults_minus s t).bind fun _ ↦ (faults_unroll _).bind fun _ ↦ faults_ok

theorem faults_isStrictSubset (s t : Space) : Faults Fault.IsWidth (s.isStrictSubset t) := by
  rw [isStrictSubset]
  split
  · exact faults_ok
  · refine (faults_isSubset s t).bind fun inside ↦ ?_
    split
    · exact (faults_isSubset t s).bind fun _ ↦ faults_ok
    · exact faults_ok

theorem faults_isEqual (s t : Space) : Faults Fault.IsWidth (s.isEqual t) := by
  rw [isEqual]
  split
  · exact faults_ok
  · refine (faults_isSubset s t).bind fun inside ↦ ?_
    split
    · exact faults_isSubset t s
    · exact faults_ok

theorem faults_insideAny (p : Pattern) :
    ∀ qs : List Pattern, Faults Fault.IsWidth (insideAny p qs)
  | [] => faults_ok
  | q :: qs => by
    refine (p.faults_isSubset q).bind fun inside ↦ ?_
    split
    · exact faults_ok
    · exact faults_insideAny p qs

theorem faults_dropInside (ps : List Pattern) :
    ∀ rs : List Region, Faults Fault.IsWidth (dropInside ps rs)
  | [] => faults_ok
  | _ :: rs =>
    (faults_insideAny _ _).bind fun _ ↦ (faults_dropInside ps rs).bind fun _ ↦ faults_ok

theorem faults_simplify (s : Space) : Faults Fault.IsWidth s.simplify :=
  (Pattern.faults_condense _ _).bind fun _ ↦ (faults_dropInside _ _).bind fun _ ↦ faults_ok

end Space

/-! ### Conditions -/

namespace Condition

/-- **A condition fails only for a width.** -/
theorem faults_check (c : Chain) : ∀ condition : Condition, Faults Fault.IsWidth (condition.check c)
  | .always | .never | .path _ => faults_ok
  | .and a b => by
    refine (faults_check c a).bind fun first ↦ ?_
    split
    · exact faults_check c b
    · exact faults_ok
  | .or a b => by
    refine (faults_check c a).bind fun first ↦ ?_
    split
    · exact faults_ok
    · exact faults_check c b
  | .not a => (faults_check c a).bind fun _ ↦ faults_ok
  | .header s => by
    show Faults Fault.IsWidth (meets s c)
    rw [meets]
    split
    · exact faults_ok
    · refine (Space.faults_intersect _ s).bind fun common ↦ ?_
      split
      · exact faults_ok
      · exact (Space.faults_unroll _).bind fun _ ↦ faults_ok

end Condition

/-! ### Networks -/

theorem Arena.faults_get {α : Type} (a : Arena α) (h : Handle) :
    Faults Fault.NotCount (a.get h) := by
  rw [get]
  split
  · exact faults_ok
  · exact faults_error (by simp [Fault.NotCount])

theorem Rule.faults_rewrite (r : Rule) (s : Space) : Faults Fault.NotCount (r.rewrite s) := by
  rw [rewrite]
  split
  · exact (s.faults_overwrite _ _).notCount
  · exact faults_ok

theorem Node.faults_overlap (receiver : Node) (sends : Pattern) :
    Faults Fault.NotCount (receiver.overlap sends) := by
  rw [overlap]
  split
  · exact (Pattern.faults_intersect _ sends).notCount
  · exact faults_ok

theorem Node.faults_overlapOther (receiver sender : Node) :
    Faults Fault.NotCount (receiver.overlapOther sender) := by
  rw [overlapOther]
  split
  · exact faults_ok
  · exact receiver.faults_overlap _

namespace Network

variable (net : Network)

theorem faults_node (key : NodeKey) : Faults Fault.NotCount (net.node key) := by
  rw [node]
  split
  · exact faults_ok
  · exact faults_error (by simp [Fault.NotCount])

/-! #### The way of a flow -/

theorem faults_revisited (key : UInt64) :
    ∀ fs : List Flow, Faults Fault.NotCount (net.revisited key fs)
  | [] => faults_ok
  | f :: rest => by
    refine (net.faults_node f.node).bind fun n ↦ ?_
    split
    · exact faults_ok
    · split
      · exact faults_ok
      · exact faults_revisited key rest

theorem faults_loopOf (flow : Handle) : Faults Fault.NotCount (net.loopOf flow) :=
  (net.flows.faults_get flow).bind fun _ ↦ (net.faults_node _).bind fun _ ↦
    net.faults_revisited _ _

theorem faults_enteredBy (port : Port) :
    ∀ fs : List Flow, Faults Fault.NotCount (net.enteredBy port fs)
  | [] => faults_ok
  | f :: rest => by
    refine (net.faults_node f.node).bind fun n ↦ ?_
    split
    · exact faults_ok
    · exact faults_enteredBy port rest

theorem faults_hops : ∀ fs : List Flow, Faults Fault.NotCount (net.hops fs)
  | [] => faults_ok
  | f :: rest => (net.faults_node f.node).bind fun _ ↦ (faults_hops rest).bind fun _ ↦ faults_ok

theorem faults_chainOf (flow : Handle) : Faults Fault.NotCount (net.chainOf flow) :=
  (net.faults_hops _).bind fun _ ↦ faults_ok

theorem faults_liveChains :
    ∀ hs : List Handle, Faults Fault.NotCount (Engine.liveChains net hs)
  | [] => faults_ok
  | h :: hs => by
    rw [Engine.liveChains]
    split
    · exact (net.faults_chainOf h).bind fun _ ↦ (faults_liveChains hs).bind fun _ ↦ faults_ok
    · exact faults_liveChains hs

/-! #### Wiring -/

theorem faults_wiresTo (sender : Node) (outPort inPort : Port) :
    ∀ ns : List Node, Faults Fault.NotCount (wiresTo sender outPort inPort ns)
  | [] => faults_ok
  | n :: ns => (n.faults_overlap _).bind fun _ ↦
      (faults_wiresTo sender outPort inPort ns).bind fun _ ↦ faults_ok

theorem faults_wiresFrom (receiver : Node) (outPort inPort : Port) :
    ∀ ns : List Node, Faults Fault.NotCount (wiresFrom receiver outPort inPort ns)
  | [] => faults_ok
  | n :: ns => (receiver.faults_overlapOther n).bind fun _ ↦
      (faults_wiresFrom receiver outPort inPort ns).bind fun _ ↦ faults_ok

theorem faults_nodesAt (keys : List NodeKey) : Faults Fault.NotCount (net.nodesAt keys) :=
  faults_mapM (fun key ↦ net.faults_node key) keys

theorem faults_wiresOf (n : Node) : Faults Fault.NotCount (net.wiresOf n) :=
  (faults_mapM (fun q ↦ faults_mapM (fun p ↦ (net.faults_nodesAt _).bind fun _ ↦
      faults_wiresTo n q p _) _) _).bind fun _ ↦
    (faults_mapM (fun p ↦ faults_mapM (fun q ↦ (net.faults_nodesAt _).bind fun _ ↦
      faults_wiresFrom n q p _) _) _).bind fun _ ↦ faults_ok

/-! #### Priority -/

theorem faults_gather (p : Pattern) (inPorts : PortSet) : ∀ (ns : List Node) (acc : Space),
    Faults Fault.NotCount (gather p inPorts acc ns)
  | [], _ => faults_ok
  | n :: ns, acc => by
    rw [gather]
    split
    · split
      · exact (p.faults_intersect _).notCount.bind fun _ ↦ (acc.faults_addPattern _).notCount.bind
          fun _ ↦ (faults_gather p inPorts ns _).bind fun _ ↦ faults_ok
      · exact faults_gather p inPorts ns acc
    · exact faults_gather p inPorts ns acc

theorem faults_coverage (n : Node) (others : List Node) :
    Faults Fault.NotCount (net.coverage n others) := by
  rw [coverage]
  split
  · refine (faults_gather _ _ _ _).bind fun ⟨union, related⟩ ↦ ?_
    dsimp only
    split
    · exact faults_ok
    · exact (Space.faults_simplify _).notCount.bind fun union ↦
        (union.faults_isEqual _).notCount.bind fun _ ↦
          (Space.faults_isSubset _ union).notCount.bind fun _ ↦ faults_ok
  · exact faults_ok

theorem faults_shared (p : Pattern) (ports : PortSet) (m : Node) :
    Faults Fault.NotCount (shared p ports m) := by
  rw [shared]
  split
  · exact faults_ok
  · split
    · exact (p.faults_intersect _).notCount
    · exact faults_ok

theorem faults_influencesWith (n : Node) (index : UInt32) (p : Pattern) :
    ∀ others : List (UInt32 × Node), Faults Fault.NotCount (influencesWith n index p others)
  | [] => faults_ok
  | (_, m) :: rest => (faults_shared p _ m).bind fun _ ↦
      (faults_influencesWith n index p rest).bind fun _ ↦ faults_ok

theorem faults_coverageAbove (n : Node) (index : UInt32) (others : List (UInt32 × Node)) :
    Faults Fault.NotCount (Engine.coverageAbove n index others net) := by
  rw [Engine.coverageAbove]
  split
  · exact net.faults_coverage n _
  · exact faults_ok

theorem faults_auditRule (table : TableId) (before : List Node) (n : Node) (after : List Node) :
    Faults Fault.NotCount (net.auditRule table before n after) := by
  have hbelow : ∀ first : List Anomaly, Faults Fault.NotCount (do
      let below ← if net.settings.anomalies.generalization then net.coverage n after else pure {}
      let second := if below.covers then [⟨.generalization, table, n.id, below.related⟩] else []
      return first ++ second : Checked (List Anomaly)) := fun first ↦ by
    split
    · exact (net.faults_coverage n after).bind fun _ ↦ faults_ok
    · exact faults_ok
  rw [auditRule]
  split
  · exact (net.faults_coverage n before).bind fun _ ↦ hbelow _
  · exact hbelow _

theorem faults_auditRules (table : TableId) : ∀ (rules before : List Node),
    Faults Fault.NotCount (net.auditRules table before rules)
  | [], _ => faults_ok
  | n :: after, before => (net.faults_auditRule table before n after).bind fun _ ↦
      (faults_auditRules table after _).bind fun _ ↦ faults_ok

theorem faults_rulesOf (table : TableId) : Faults Fault.NotCount (net.rulesOf table) :=
  faults_mapM (k := fun place : UInt32 × NodeKey ↦ do return (place.1, ← net.node place.2))
    (fun place ↦ (net.faults_node place.2).bind fun _ ↦ faults_ok) _

theorem faults_freshId : Faults Fault.NotCount net.freshId := by
  rw [freshId]
  split
  · exact faults_error (by simp [Fault.NotCount])
  · exact faults_ok

/-- **An audit asks nothing about counts.** -/
theorem faults_auditTables :
    ∀ ts : List TableId, Faults Fault.NotCount (net.auditTables ts)
  | [] => faults_ok
  | t :: ts => (net.faults_rulesOf t).bind fun _ ↦ (net.faults_auditRules t _ _).bind fun _ ↦
      (faults_auditTables ts).bind fun _ ↦ faults_ok

end Network

end HeaderFlow
