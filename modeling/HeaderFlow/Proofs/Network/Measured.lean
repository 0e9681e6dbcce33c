import HeaderFlow.Proofs.Network.Upkeep

/-!
# What changes are composed of

Every change is composed of steady computations and of visits. `Engine.Measured` says so of a
computation, and from that alone follows what all of them have in common:

* **the frame is kept**, however the computation ends: no step of it touches the length of the
  headers, the settings, the counter of identifiers or the mark of consistency;
* **what is entered is left**: a computation that comes to its end leaves the depth of the budget
  where it was, and has not passed the limit of visits.

Where headers flow, computations are tame as well (`Engine.Tame`), which says more. So propagation,
wiring and influences are walked through for that, and measured they are by `Tame.measured`.

## The limit of time

Entering a visit may overrun the budget in three ways: by depth, by number, and by the clock, which
is read only now and then. The first two are compared with what was counted; of the clock nothing is
assumed. So `Budgeted`, which says how the budget before and the budget after are related, speaks of
depth and number, and a visit that halts does so for any of the three (`enter_run`).
-/

namespace HeaderFlow

/-- The limit of visits, if there is one, is not passed. -/
def Budget.Observed (b : Budget) : Prop := b.maxVisits = 0 ∨ b.visits ≤ b.maxVisits

/-- No visit is open, and the limit of visits is not passed. -/
def Budget.Balanced (b : Budget) : Prop := b.depth = 0 ∧ b.Observed

/-- A fresh budget is balanced. -/
theorem Budget.balanced_reset (b : Budget) : b.reset.Balanced := ⟨rfl, .inr (Nat.zero_le _)⟩

/-- **Nothing is overrun if none of the three limits is.** -/
theorem Budget.overrun?_eq_none {b : Budget} :
    b.overrun? = none ↔ b.depth ≤ b.maxDepth ∧ b.Observed ∧ b.isLate = false := by
  rw [overrun?, Observed]
  split
  · simp only [reduceCtorEq, false_iff]
    omega
  · split
    · simp only [reduceCtorEq, false_iff]
      omega
    · have hcounts : b.depth ≤ b.maxDepth ∧ (b.maxVisits = 0 ∨ b.visits ≤ b.maxVisits) := by omega
      cases hlate : b.isLate <;> simp [hcounts]

namespace Engine

variable {α β : Type} {a : α} {x : Engine α} {k : α → Engine β} {net net' : Network} {key : NodeKey}
  {h : Handle} {arrive : NodeKey → Handle → Engine Unit}
  {refresh : Handle → Option Pattern → Engine Unit}

/-- The computation is composed of steady ones and of visits. -/
inductive Measured : {α : Type} → Engine α → Prop
  | steady {α : Type} {x : Engine α} : Steady x → Measured x
  | bind {α β : Type} {x : Engine α} {k : α → Engine β} :
    Measured x → (∀ a, Measured (k a)) → Measured (x >>= k)
  | visit {body : Engine Unit} : Measured body → Measured (visit body)
  | tooDeep : Measured (enter >>= fun _ ↦ tooDeep)

/-- The budget is entered as deep as before and has the same limits; if its visits were within
theirs, they still are. -/
structure Budgeted (b b' : Budget) : Prop where
  depth : b'.depth = b.depth
  maxDepth : b'.maxDepth = b.maxDepth
  maxVisits : b'.maxVisits = b.maxVisits
  observed : b.Observed → b'.Observed

namespace Budgeted

/-- Nothing was entered. -/
theorem refl (b : Budget) : Budgeted b b := ⟨rfl, rfl, rfl, id⟩

/-- What was entered and left twice was left. -/
theorem trans {b b' b'' : Budget} (h : Budgeted b b') (h' : Budgeted b' b'') : Budgeted b b'' :=
  ⟨h'.depth.trans h.depth, h'.maxDepth.trans h.maxDepth, h'.maxVisits.trans h.maxVisits,
    fun ho ↦ h'.observed (h.observed ho)⟩

/-- A visit that is left again. -/
theorem visit {b b' : Budget} (hcount : b.count.overrun? = none) (h : Budgeted b.count b') :
    Budgeted b b'.leave := by
  have hdepth : b'.depth = b.depth + 1 := h.depth
  exact ⟨by simp only [Budget.leave]; omega, h.maxDepth, h.maxVisits, fun _ ↦
    h.observed (Budget.overrun?_eq_none.1 hcount).2.1⟩

end Budgeted

/-- An update, as it is run. -/
theorem update_bind_run {f : Network → Network} {k : Unit → Engine β} {p : Progress} :
    (update f >>= k) p = k () { p with network := f p.network } := rfl

/-- Entering a visit counts it, or halts. -/
theorem enter_run (p : Progress) : enter p = match p.network.budget.count.overrun? with
    | some o => .error (.overrun o)
      { p with network := { p.network with budget := p.network.budget.count } }
    | none => .ok () { p with network := { p.network with budget := p.network.budget.count } } := by
  rw [enter, network_bind_run, Budget.enter]
  dsimp only
  rw [update_bind_run]
  cases p.network.budget.count.overrun? <;> rfl

/-- **However a measured computation ends, the frame is kept**; if it comes to its end, the budget
is entered as deep as before. -/
theorem Measured.run (hm : Measured x) : ∀ p, match x p with
    | .ok _ p' => frame p'.network = frame p.network ∧
      Budgeted p.network.budget p'.network.budget
    | .error _ p' => frame p'.network = frame p.network := by
  -- The induction follows how the computation was put together. A visit that is not entered has
  -- changed nothing, and one that is broken off inside is left where it was.
  induction hm with
  | steady hs =>
    intro p
    have hend := hs.run p
    split at hend <;> simp_all [Budgeted.refl]
  | @bind _ _ x k _ _ ihx ihk =>
    intro p
    have hfirst := ihx p
    simp only [Bind.bind, EStateM.bind]
    cases hrun : x p with
    | ok a s =>
      rw [hrun] at hfirst
      have hrest := ihk a s
      dsimp only
      split at hrest
      · exact ⟨hrest.1.trans hfirst.1, hfirst.2.trans hrest.2⟩
      · exact hrest.trans hfirst.1
    | error e s =>
      rw [hrun] at hfirst
      exact hfirst
  | @visit body _ ih =>
    intro p
    simp only [Engine.visit, Bind.bind, EStateM.bind, enter_run]
    cases hcount : p.network.budget.count.overrun? with
    | some o => exact rfl
    | none =>
      have hbody := ih { p with network := { p.network with budget := p.network.budget.count } }
      dsimp only
      split at hbody
      · rename_i heq
        rw [heq]
        exact ⟨hbody.1, .visit hcount hbody.2⟩
      · rename_i heq
        rw [heq]
        exact hbody
  | tooDeep =>
    intro p
    simp only [Bind.bind, EStateM.bind, enter_run]
    cases p.network.budget.count.overrun? with
    | some o => exact rfl
    | none => exact rfl

/-! ### Composing -/

theorem measured_pure : Measured (pure a : Engine α) := .steady steady_pure

/-- A measured computation may follow a steady one. -/
theorem Measured.after (hx : Steady x) (hk : ∀ a, Measured (k a)) : Measured (x >>= k) :=
  .bind (.steady hx) hk

/-- A walk along a list is measured if its steps are. -/
theorem Measured.forM {f : α → Engine Unit} (hf : ∀ a, Measured (f a)) :
    ∀ l : List α, Measured (l.forM f)
  | [] => measured_pure
  | a :: l => .bind (k := fun _ ↦ l.forM f) (hf a) fun _ ↦ Measured.forM hf l

/-- A tame computation is measured. -/
theorem Tame.measured (hx : Tame true x) : Measured x := by
  induction hx with
  | pure a => exact .steady (.pure a)
  | network => exact .steady .network
  | report _ => exact .steady (.report _)
  | notify key h change => exact .steady (steady_notify key h change)
  | update hf => exact .steady (.update fun net ↦ ⟨(hf net).1, (hf net).2.1⟩)
  | ask q => exact .steady (.ask q)
  | bind _ _ ihx ihk => exact ihx.bind ihk
  | visit _ _ ih => exact ih.visit
  | tooDeep => exact .tooDeep

/-! ### Arriving -/

/-! ### Propagation and wiring are tame

By recursion on the room for visits, one lemma for each function of the engine. Arriving and looking
at a flow anew are parameters of the functions that call them. -/

theorem tame_sendHeaders (harrive : ∀ key h, Tame true (arrive key h)) (key : NodeKey)
    (h fwd : Handle) (side : Pipe) (measure : Measure) (f : Flow) (processed : Space) :
    Tame true (sendHeaders arrive key h fwd side measure f processed) := by
  refine .bind (tame_check _) fun out ↦ ?_
  split
  · exact tame_pure
  · exact .bind (tame_pipe _) fun _ ↦ .bind (tame_reportLost _ _ _ _ _ _ _) fun _ ↦
      .bind (tame_insertFlow _) fun _ ↦ harrive _ _

theorem tame_send (harrive : ∀ key h, Tame true (arrive key h)) (key : NodeKey)
    (h fwd : Handle) (measure : Measure) : Tame true (send arrive key h fwd measure) := by
  refine .bind (tame_pipe? fwd) fun o ↦ ?_
  split
  · refine .bind (tame_blocked _ _ _) fun blocked ↦ ?_
    split
    · exact tame_pure
    · refine .bind (tame_flow h) fun f ↦ ?_
      split
      · exact tame_sendHeaders harrive _ _ _ _ _ _ _
      · exact tame_pure
  · exact tame_pure

theorem tame_sendAll (harrive : ∀ key h, Tame true (arrive key h)) (key : NodeKey)
    (h : Handle) : Tame true (sendAll arrive key h) :=
  .bind (tame_node key) fun _ ↦ .forM (fun fwd ↦ tame_send harrive key h fwd .flow) _

theorem tame_takeIn (harrive : ∀ key h, Tame true (arrive key h)) (key : NodeKey)
    (h : Handle) : Tame true (takeIn arrive key h) := by
  refine .bind (tame_node key) fun n ↦ ?_
  split
  · refine .bind (tame_register key h) fun _ ↦ .bind (tame_ask _) fun back ↦ ?_
    split
    · exact tame_markLooped _ _ _
    · refine .bind (tame_recompute key h) fun alive ↦ ?_
      split
      · exact tame_sendAll harrive key h
      · exact tame_pure
  · exact (tame_register key h).bind fun _ ↦ (tame_updateFlow _ _).bind fun _ ↦ tame_notify _ _ _
  · exact tame_sendAll harrive key h

/-- **However much room there is for visits, arriving is tame.** -/
theorem tame_arriveWithin : ∀ (room : Nat) (key : NodeKey) (h : Handle),
    Tame true (arriveWithin room key h)
  | 0, _, _ => .tooDeep rfl
  | room + 1, key, h => .visit rfl (tame_takeIn (tame_arriveWithin room) key h)

/-! ### Refreshing -/

theorem tame_pushLoss (hrefresh : ∀ h loss, Tame true (refresh h loss)) (loss : Pattern)
    (child : Handle) : Tame true (pushLoss refresh loss child) := by
  refine .bind (tame_flow? child) fun o ↦ ?_
  split
  · split
    · refine .bind (tame_pipe? _) fun o ↦ ?_
      split
      · refine .bind (tame_check _) fun o ↦ ?_
        split
        · exact .bind (tame_check _) fun _ ↦ .bind (tame_updateFlow _ _) fun _ ↦ hrefresh _ _
        · exact tame_pure
      · exact tame_pure
    · exact tame_pure
  · exact tame_pure

theorem tame_renewChild (hrefresh : ∀ h loss, Tame true (refresh h loss)) (processed : Space)
    (child : Handle) : Tame true (renewChild refresh processed child) := by
  refine .bind (tame_flow? child) fun o ↦ ?_
  split
  · split
    · refine .bind (tame_pipe? _) fun o ↦ ?_
      split
      · refine .bind (tame_check _) fun out ↦ ?_
        split
        · exact .bind (tame_removeFlow _) fun _ ↦ tame_pure
        · exact .bind (tame_updateFlow _ _) fun _ ↦ .bind (hrefresh _ _) fun _ ↦ tame_pure
      · exact .bind (tame_removeFlow _) fun _ ↦ tame_pure
    · exact tame_pure
  · exact tame_pure

theorem tame_renewChildren (hrefresh : ∀ h loss, Tame true (refresh h loss))
    (processed : Space) : ∀ cs : List Handle, Tame true (renewChildren refresh processed cs)
  | [] => tame_pure
  | c :: cs => .bind (tame_renewChild hrefresh processed c) fun _ ↦
      .bind (tame_renewChildren hrefresh processed cs) fun _ ↦ tame_pure

theorem tame_passOn (harrive : ∀ key h, Tame true (arrive key h))
    (hrefresh : ∀ h loss, Tame true (refresh h loss)) (h : Handle) (loss : Option Pattern) :
    Tame true (passOn arrive refresh h loss) := by
  refine .bind (tame_flow h) fun f ↦ ?_
  split
  · exact .forM (tame_pushLoss hrefresh _) _
  · split
    · refine .bind (tame_renewChildren hrefresh _ _) fun used ↦ .bind (tame_node _) fun n ↦
        .forM (fun fwd ↦ ?_) _
      split
      · exact tame_send harrive _ _ _ _
      · exact tame_pure
    · exact tame_pure

theorem tame_goOn (harrive : ∀ key h, Tame true (arrive key h))
    (hrefresh : ∀ h loss, Tame true (refresh h loss)) (h : Handle) (loss : Option Pattern)
    (alive : Bool) : Tame true (goOn arrive refresh h loss alive) := by
  rw [goOn]
  split
  · exact tame_passOn harrive hrefresh h loss
  · exact tame_goOn_dead h

theorem tame_reconsiderAtRule (harrive : ∀ key h, Tame true (arrive key h))
    (hrefresh : ∀ h loss, Tame true (refresh h loss)) (h : Handle) (f : Flow) (r : Rule)
    (loss : Option Pattern) : Tame true (reconsiderAtRule arrive refresh h f r loss) := by
  unfold reconsiderAtRule
  split
  · exact tame_pure
  · split
    · exact .bind (tame_recompute _ _) fun _ ↦ tame_goOn harrive hrefresh _ _ _
    · split
      · exact .bind (tame_lose _ _ _) fun _ ↦ tame_goOn harrive hrefresh _ _ _
      · exact tame_pure

theorem tame_reconsider (harrive : ∀ key h, Tame true (arrive key h))
    (hrefresh : ∀ h loss, Tame true (refresh h loss)) (h : Handle) (loss : Option Pattern) :
    Tame true (reconsider arrive refresh h loss) := by
  refine .bind (tame_flow? h) fun o ↦ ?_
  split
  · refine .bind (tame_node _) fun n ↦ ?_
    split
    · exact tame_reconsiderAtRule harrive hrefresh _ _ _ _
    · exact (tame_reconsiderAtProbe _ _ _).bind fun _ ↦ tame_notify _ _ _
    · exact tame_pure
  · exact tame_pure

/-- **However much room there is for visits, looking at a flow anew is tame.** -/
theorem tame_refreshWithin : ∀ (room : Nat) (h : Handle) (loss : Option Pattern),
    Tame true (refreshWithin room h loss)
  | 0, _, _ => .tooDeep rfl
  | room + 1, h, loss =>
    .visit rfl (tame_reconsider (tame_arriveWithin room) (tame_refreshWithin room) h loss)

/-! ### Entry points -/

theorem tame_arrive (key : NodeKey) (h : Handle) : Tame true (Engine.arrive key h) :=
  .bind tame_room fun _ ↦ tame_arriveWithin _ key h

theorem tame_refresh (h : Handle) (loss : Option Pattern) : Tame true (Engine.refresh h loss) :=
  .bind tame_room fun _ ↦ tame_refreshWithin _ h loss

theorem tame_sendFlows (key : NodeKey) (fwd : Handle) : Tame true (sendFlows key fwd) := by
  refine .bind (tame_node key) fun n ↦ .forM (fun h ↦ .bind (tame_flow? h) fun o ↦ ?_) _
  split
  · exact tame_send tame_arrive _ _ _ _
  · exact tame_pure

theorem tame_pull (key : NodeKey) : Tame true (pull key) := by
  refine .bind (tame_node key) fun n ↦ .forM (fun back ↦ .bind (tame_pipe? back) fun o ↦ ?_) _
  split
  · exact .bind (tame_pipe _) fun _ ↦ tame_sendFlows _ _
  · exact tame_pure

theorem tame_refreshFlows (key : NodeKey) (ports : PortSet) (loss : Option Pattern) :
    Tame true (refreshFlows key ports loss) := by
  refine .bind (tame_node key) fun n ↦ .forM (fun h ↦ .bind (tame_flow? h) fun o ↦ ?_) _
  split
  · exact tame_refresh h loss
  · exact tame_pure

/-! ### Wiring and priority -/

theorem tame_connectLink (l : Link) : Tame true (connectLink l) := by
  refine .bind tame_network fun net ↦ .forM (fun s ↦ .forM (fun r ↦ ?_) _) _
  refine .bind (tame_node _) fun _ ↦ .bind (tame_node _) fun _ ↦
    .bind (tame_check _) fun o ↦ ?_
  split
  · exact .bind (tame_addPipe _) fun _ ↦ tame_sendFlows _ _
  · exact tame_pure

theorem tame_takeWon (key : NodeKey) : Tame true (takeWon key) := by
  refine .bind (tame_node key) fun n ↦ ?_
  split
  · refine .forM (fun k ↦ .bind tame_network fun net ↦ ?_) _
    split
    · exact tame_refreshFlows _ _ _
    · exact tame_pure
  · exact tame_pure

theorem tame_release (key : NodeKey) : Tame true (release key) := by
  refine .bind (tame_node key) fun n ↦ ?_
  split
  · exact .bind (tame_mapRule _ (by exact fun _ ↦ ⟨rfl, rfl, rfl⟩)) fun _ ↦
      .bind (Tame.forM tame_dropLost _) fun _ ↦
      .bind (tame_dropWon _) fun _ ↦ .forM (fun _ ↦ tame_refreshFlows _ _ _) _
  · exact tame_pure

/-! ### Nodes -/

/-- Removing a rule refreshes flows, and is otherwise steady. -/
theorem measured_removeRuleNode (key : NodeKey) : Measured (removeRuleNode key) :=
  .after (tame_removeFlows key).steady fun _ ↦ .after (tame_disconnect key).steady fun _ ↦
    .bind (tame_release key).measured fun _ ↦ .steady (steady_eraseNode key)

/-- Removing a source or a probe refreshes nothing, so no visit is made. -/
theorem steady_removePlainNode (key : NodeKey) : Steady (removePlainNode key) :=
  (tame_removeFlows key).steady.bind fun _ ↦ (tame_disconnect key).steady.bind fun _ ↦
    steady_eraseNode key

end Engine

end HeaderFlow
