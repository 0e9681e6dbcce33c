import HeaderFlow.Proofs.Network.TwinArrival

/-!
# Refreshing in twin networks

When the headers of a flow change, so do those of its counterpart, and what came from both is
brought up to date alike: the same children lose headers or are dropped, and the same pipes are
tried anew. **Refreshing a lost flow is idle**, as is everything that comes of it.

The layout is that of `TwinArrival`: for each function `f` of the engine there is `follows_f` for
flows that are kept and `idle_f` for those that are lost, in the order of the calls. What is said of
the way of refreshing flows, which the functions are handed as `refresh`, is `FollowsRefresh` and
`IdlesRefresh`, and induction on the room that is left ties the knot.

A kept flow has kept children only, so `renewChildren` walks along lists that go with each other and
**the pipes that are used up are the same**. What is then tried anew are the others, which are the
same again. Where the flows of a node are refreshed or sent, those of lost sources are among them in
the first network, and the walk is culled.
-/

namespace HeaderFlow.Engine

open Checked (tracks_ok)

variable {n m : Nat} {T : Comparison n m} {ν : Naming} {net net' : Network} {key key' : NodeKey}
  {h h' c c' fwd fwd' : Handle} {f f' : Flow} {s s' : Space} {loss loss' : Pattern}
  {o o' : Option Pattern} {measure : Measure} {arrive arrive' : NodeKey → Handle → Engine Unit}
  {refresh refresh' : Handle → Option Pattern → Engine Unit}

/-- A way of refreshing flows is tracked by another. -/
def FollowsRefresh (T : Comparison n m) (ν : Naming)
    (refresh refresh' : Handle → Option Pattern → Engine Unit) : Prop :=
  ∀ ν' h h' o o', ν.Grows ν' → ν'.flow.Kept h h' → Option.Rel T.pattern o o' →
    Follows T ν' (refresh h o) (refresh' h' o')

/-- A way of refreshing flows is idle for lost ones. -/
def IdlesRefresh (T : Comparison n m) (ν : Naming)
    (refresh : Handle → Option Pattern → Engine Unit) : Prop :=
  ∀ ν' h o, ν.Grows ν' → ν'.flow.Lost () h → Idle T ν' (refresh h o)

/-- More names were added meanwhile. -/
theorem FollowsRefresh.grow {ν' : Naming} (hr : FollowsRefresh T ν refresh refresh')
    (hν : ν.Grows ν') : FollowsRefresh T ν' refresh refresh' := fun ν'' h h' o o' hν' ↦
  hr ν'' h h' o o' (hν.trans hν')

/-- More names were added meanwhile, and lost flows stay lost. -/
theorem IdlesRefresh.grow {ν' : Naming} (hr : IdlesRefresh T ν refresh) (hν : ν.Grows ν') :
    IdlesRefresh T ν' refresh := fun ν'' h o hν' ↦ hr ν'' h o (hν.trans hν')

/-! ### What came from a flow -/

/-- The headers that arrived are changed. -/
theorem follows_input (hh : ν.flow.Kept h h') (hs : T.space s s') :
    Follows T ν (updateFlow h fun f ↦ { f with input := s })
      (updateFlow h' fun f ↦ { f with input := s' }) :=
  follows_updateFlow hh (lightens_input s) fun _ _ hf ↦ { hf with input := hs }

/-- The headers of a lost flow are changed. -/
theorem idle_input (hh : ν.flow.Lost () h) :
    Idle T ν (updateFlow h fun f ↦ { f with input := s }) :=
  idle_updateFlow hh (lightens_input s) fun _ hf ↦ { hf with }

/-- A child and its counterpart lose headers. -/
theorem follows_pushLoss (hr : FollowsRefresh T ν refresh refresh') (hloss : T.pattern loss loss')
    (hc : ν.flow.Kept c c') :
    Follows T ν (pushLoss refresh loss c) (pushLoss refresh' loss' c') := by
  refine tracks_flow?_bind hc fun l l' hl ↦ ?_
  cases hl with
  | none => exact follows_pure
  | @some f f' hff =>
    have hpipe := hff.pipe
    dsimp only
    generalize f.pipe = w at hpipe
    generalize f'.pipe = w' at hpipe
    cases hpipe with
    | none => exact follows_pure
    | @some fwd fwd' hfwd =>
      refine tracks_pipe?_bind hfwd fun l l' hl ↦ ?_
      cases hl with
      | none => exact follows_pure
      | @some side side' hside =>
        refine tracks_check_bind (T.intersect hside.pattern hloss) fun r r' hrr ↦ ?_
        cases hrr with
        | none => exact follows_pure
        | @some piped piped' hpiped =>
          refine tracks_check_bind (T.cut hff.input hpiped) fun t t' ht ↦ ?_
          exact (follows_input hc ht).next fun ν' hν ↦
            hr ν' c c' _ _ hν (hc.grow hν.flow) (.some hpiped)

/-- A lost child loses headers. -/
theorem idle_pushLoss (hr : IdlesRefresh T ν refresh) (hc : ν.flow.Lost () c) :
    Idle T ν (pushLoss refresh loss c) := by
  refine tracks_flow?_left hc fun l _ ↦ ?_
  split
  · split
    · refine tracks_pipe?_left fun l _ ↦ ?_
      split
      · refine tracks_check_left fun l _ ↦ ?_
        split
        · exact tracks_check_left fun t _ ↦ (idle_input hc).next fun ν' hν ↦
            hr ν' c _ hν (hc.grow hν.flow)
        · exact follows_pure
      · exact follows_pure
    · exact follows_pure
  · exact follows_pure

/-- A child gets new headers or is dropped, as its counterpart is; if it stays, its pipe is used
up. -/
theorem tracks_renewChild (hr : FollowsRefresh T ν refresh refresh') (hs : T.space s s')
    (hc : ν.flow.Kept c c') : Tracks T ν (renewChild refresh s c) (renewChild refresh' s' c')
      fun ν' u u' ↦ Option.Rel ν'.pipe.Kept u u' := by
  refine tracks_flow?_bind hc fun l l' hl ↦ ?_
  cases hl with
  | none => exact tracks_pure .none
  | @some f f' hff =>
    have hpipe := hff.pipe
    dsimp only
    generalize f.pipe = w at hpipe
    generalize f'.pipe = w' at hpipe
    cases hpipe with
    | none => exact tracks_pure .none
    | @some fwd fwd' hfwd =>
      refine tracks_pipe?_bind hfwd fun l l' hl ↦ ?_
      cases hl with
      | none => exact (follows_removeFlow hc).next fun _ _ ↦ tracks_pure .none
      | @some side side' hside =>
        refine tracks_check_bind (tracks_pipeOut hs hside) fun t t' ht ↦ ?_
        rw [T.isEmpty ht]
        split
        · exact (follows_removeFlow hc).next fun _ _ ↦ tracks_pure .none
        · refine (follows_input hc ht).next fun ν₁ hν₁ ↦ ?_
          refine (hr ν₁ c c' _ _ hν₁ (hc.grow hν₁.flow) .none).next fun ν₂ hν₂ ↦ ?_
          exact tracks_pure (.some (hfwd.grow (hν₁.trans hν₂).pipe))

/-- A lost child gets new headers or is dropped. -/
theorem idle_renewChild (hr : IdlesRefresh T ν refresh) (hc : ν.flow.Lost () c) :
    Idle T ν (renewChild refresh s c) := by
  refine tracks_flow?_left hc fun l _ ↦ ?_
  split
  · split
    · refine tracks_pipe?_left fun l _ ↦ ?_
      split
      · refine tracks_check_left fun t _ ↦ ?_
        split
        · exact (idle_removeFlow hc).next fun _ _ ↦ tracks_pure trivial
        · exact (idle_input hc).next fun ν₁ hν₁ ↦
            (hr ν₁ c _ hν₁ (hc.grow hν₁.flow)).next fun _ _ ↦ tracks_pure trivial
      · exact (idle_removeFlow hc).next fun _ _ ↦ tracks_pure trivial
    · exact tracks_pure trivial
  · exact tracks_pure trivial

/-- The same pipes are used up by children that stay. -/
theorem tracks_renewChildren {cs cs' : List Handle} (hr : FollowsRefresh T ν refresh refresh')
    (hs : T.space s s') (hcs : Culled ν.flow.Kept (fun _ ↦ False) cs cs') :
    Tracks T ν (renewChildren refresh s cs) (renewChildren refresh' s' cs') fun ν' u u' ↦
      Culled ν'.pipe.Kept (fun _ ↦ False) u u' := by
  induction cs generalizing ν cs' with
  | nil =>
    cases hcs
    exact tracks_pure .nil
  | cons c cs ih =>
    cases hcs with
    | skip hno => exact hno.elim
    | @keep _ c' _ cs' hc hcs =>
      refine (tracks_renewChild hr hs hc).bind fun ν₁ u u' hν₁ hu ↦ ?_
      refine (ih (hr.grow hν₁) (hcs.imp (fun _ _ hc ↦ hc.grow hν₁.flow) fun _ hno ↦ hno)).bind
        fun ν₂ v v' hν₂ hv ↦ tracks_pure ?_
      refine Culled.append ?_ hv
      cases hu with
      | none => exact .nil
      | some hfwd => exact .single (hfwd.grow hν₂.pipe)

/-- The children of a lost flow are lost. -/
theorem idle_renewChildren {cs : List Handle} (hr : IdlesRefresh T ν refresh)
    (hcs : ∀ c ∈ cs, ν.flow.Lost () c) : Idle T ν (renewChildren refresh s cs) := by
  induction cs generalizing ν with
  | nil => exact tracks_pure trivial
  | cons c cs ih =>
    obtain ⟨hc, hcs⟩ := List.forall_mem_cons.1 hcs
    refine (idle_renewChild hr hc).bind_left fun ν₁ u hν₁ _ ↦ ?_
    exact (ih (hr.grow hν₁) fun c hc ↦ (hcs c hc).grow hν₁.flow).bind_left fun _ _ _ _ ↦
      tracks_pure trivial

/-- **The same children are renewed, and the same pipes tried anew.** -/
theorem follows_renewAll (ha : FollowsArrival T ν arrive arrive')
    (hr : FollowsRefresh T ν refresh refresh') (hh : ν.flow.Kept h h') (hff : T.Flows ν f f')
    (hs : T.space s s') :
    Follows T ν (renewAll arrive refresh h f s) (renewAll arrive' refresh' h' f' s') := by
  refine (tracks_renewChildren hr hs hff.children).bind fun ν₁ used used' hν₁ hused ↦ ?_
  refine tracks_of_twins fun ⟨_, _, hT⟩ ↦ ?_
  have hnode := hff.node.grow hν₁.node
  refine tracks_node_bind hnode fun k k' hk ↦ ?_
  refine follows_forM_all hk.next fun ν₂ fwd fwd' hν₂ hfwd ↦ ?_
  have hcontains : used.contains fwd = used'.contains fwd' :=
    hused.contains (fun _ _ hg ↦ hT.pipes.injective.beq_eq hfwd hg) fun _ hno ↦ hno.elim
  rw [hcontains]
  split
  · exact follows_send (ha.grow (hν₁.trans hν₂)) (hnode.grow hν₂.node)
      (hh.grow (hν₁.trans hν₂).flow) (hfwd.grow hν₂.pipe)
  · exact follows_pure

/-- All that comes of a lost flow is renewed. -/
theorem idle_renewAll (ha : IdlesArrival T ν arrive) (hr : IdlesRefresh T ν refresh)
    (hh : ν.flow.Lost () h) (hf : Comparison.LostFlow ν f) :
    Idle T ν (renewAll arrive refresh h f s) := by
  refine (idle_renewChildren hr hf.children).bind_left fun ν₁ used hν₁ _ ↦ ?_
  refine tracks_node_left fun _ _ k _ _ ↦ idle_forM fun fwd _ ν₂ hν₂ ↦ ?_
  split
  · exact idle_send (ha.grow (hν₁.trans hν₂)) (hh.grow (hν₁.trans hν₂).flow)
  · exact follows_pure

/-- A change is passed on to what came of a flow. -/
theorem follows_passOn (ha : FollowsArrival T ν arrive arrive')
    (hr : FollowsRefresh T ν refresh refresh') (hh : ν.flow.Kept h h')
    (ho : Option.Rel T.pattern o o') :
    Follows T ν (passOn arrive refresh h o) (passOn arrive' refresh' h' o') := by
  refine tracks_flow_bind hh fun f f' hff ↦ ?_
  cases ho with
  | some hloss =>
    exact follows_forM_all hff.children fun ν' c c' hν hc ↦
      follows_pushLoss (hr.grow hν) hloss (hc.grow hν.flow)
  | none =>
    have hprocessed := hff.processed
    dsimp only
    generalize f.processed = l at hprocessed
    generalize f'.processed = l' at hprocessed
    cases hprocessed with
    | none => exact follows_pure
    | some hs => exact follows_renewAll ha hr hh hff hs

/-- A change is passed on to what came of a lost flow. -/
theorem idle_passOn (ha : IdlesArrival T ν arrive) (hr : IdlesRefresh T ν refresh)
    (hh : ν.flow.Lost () h) : Idle T ν (passOn arrive refresh h o) := by
  refine tracks_flow_left hh fun f hf ↦ ?_
  split
  · exact idle_forM fun c hc ν' hν ↦ idle_pushLoss (hr.grow hν) ((hf.children c hc).grow hν.flow)
  · split
    · exact idle_renewAll ha hr hh hf
    · exact follows_pure

/-! ### Refreshing a flow -/

/-- A flow and its counterpart lose headers, and both live on or neither does. -/
theorem tracks_lose (hh : ν.flow.Kept h h') (hs : T.space s s') (hloss : T.pattern loss loss') :
    Tracks T ν (lose h s loss) (lose h' s' loss') fun _ b b' ↦ b' = b := by
  refine tracks_check_bind ((T.cut hs hloss).bind fun _ _ ht ↦ T.compact ht .none) fun t t' ht ↦ ?_
  exact (follows_process hh (.some ht)).next fun _ _ ↦ tracks_pure (congrArg (!·) (T.isEmpty ht))

/-- A lost flow loses headers. -/
theorem idle_lose (hh : ν.flow.Lost () h) : Idle T ν (lose h s loss) :=
  tracks_check_left fun _ _ ↦ (idle_process hh).next fun _ _ ↦ tracks_pure trivial

/-- A flow that lives on passes the change on; one that does not is dropped below. -/
theorem follows_goOn (ha : FollowsArrival T ν arrive arrive')
    (hr : FollowsRefresh T ν refresh refresh') (hh : ν.flow.Kept h h')
    (ho : Option.Rel T.pattern o o') (alive : Bool) :
    Follows T ν (goOn arrive refresh h o alive) (goOn arrive' refresh' h' o' alive) := by
  rw [goOn, goOn]
  split
  · exact follows_passOn ha hr hh ho
  · exact (follows_dropBelow hh).next fun ν₁ hν₁ ↦ tracks_flow_bind (hh.grow hν₁.flow) fun _ _ _ ↦
      follows_process (hh.grow hν₁.flow) .none

/-- What came of a lost flow is brought up to date or dropped. -/
theorem idle_goOn (ha : IdlesArrival T ν arrive) (hr : IdlesRefresh T ν refresh)
    (hh : ν.flow.Lost () h) (alive : Bool) : Idle T ν (goOn arrive refresh h o alive) := by
  rw [goOn]
  split
  · exact idle_passOn ha hr hh
  · exact (idle_dropBelow hh).next fun ν₁ hν₁ ↦ tracks_flow_left (hh.grow hν₁.flow) fun _ _ ↦
      idle_process (hh.grow hν₁.flow)

/-- A flow at a rule is brought up to date. -/
theorem follows_reconsiderAtRule {r r' : Rule} (ha : FollowsArrival T ν arrive arrive')
    (hr : FollowsRefresh T ν refresh refresh') (hh : ν.flow.Kept h h') (hff : T.Flows ν f f')
    (hrule : T.Rules r r') (ho : Option.Rel T.pattern o o') :
    Follows T ν (reconsiderAtRule arrive refresh h f r o)
      (reconsiderAtRule arrive' refresh' h' f' r' o') := by
  unfold reconsiderAtRule
  rw [hff.looped, ← optionRel_isSome hrule.overwrite]
  split
  · exact follows_pure
  have hloss : Option.Rel T.pattern (if r.overwrite.isSome = true then none else o)
      (if r.overwrite.isSome = true then none else o') := by
    split
    · exact .none
    · exact ho
  generalize (if r.overwrite.isSome = true then none else o) = l at hloss
  generalize (if r.overwrite.isSome = true then none else o') = l' at hloss
  cases hloss with
  | none =>
    refine (tracks_recompute hff.node hh).bind fun ν₁ b b' hν₁ hb ↦ ?_
    rw [hb]
    exact follows_goOn (ha.grow hν₁) (hr.grow hν₁) (hh.grow hν₁.flow) .none b
  | @some loss loss' hloss =>
    have hprocessed := hff.processed
    dsimp only
    generalize f.processed = w at hprocessed
    generalize f'.processed = w' at hprocessed
    cases hprocessed with
    | none => exact follows_pure
    | some hs =>
      refine (tracks_lose hh hs hloss).bind fun ν₁ b b' hν₁ hb ↦ ?_
      rw [hb]
      exact follows_goOn (ha.grow hν₁) (hr.grow hν₁) (hh.grow hν₁.flow) (.some hloss) b

/-- A lost flow at a rule is brought up to date. -/
theorem idle_reconsiderAtRule {r : Rule} (ha : IdlesArrival T ν arrive)
    (hr : IdlesRefresh T ν refresh) (hh : ν.flow.Lost () h) :
    Idle T ν (reconsiderAtRule arrive refresh h f r o) := by
  unfold reconsiderAtRule
  split
  · exact follows_pure
  split
  · exact (idle_recompute hh).bind_left fun ν₁ b hν₁ _ ↦
      idle_goOn (ha.grow hν₁) (hr.grow hν₁) (hh.grow hν₁.flow) b
  · split
    · exact (idle_lose hh).bind_left fun ν₁ b hν₁ _ ↦
        idle_goOn (ha.grow hν₁) (hr.grow hν₁) (hh.grow hν₁.flow) b
    · exact follows_pure

/-- A flow at a probe is brought up to date. -/
theorem follows_reconsiderAtProbe (hh : ν.flow.Kept h h') (hff : T.Flows ν f f')
    (ho : Option.Rel T.pattern o o') :
    Follows T ν (reconsiderAtProbe h f o) (reconsiderAtProbe h' f' o') := by
  unfold reconsiderAtProbe
  cases ho with
  | none => exact follows_pass hh
  | some hloss =>
    have hprocessed := hff.processed
    generalize f.processed = w at hprocessed
    generalize f'.processed = w' at hprocessed
    cases hprocessed with
    | none => exact follows_pure
    | some hs => exact (tracks_lose hh hs hloss).discard

/-- A lost flow at a probe is brought up to date. -/
theorem idle_reconsiderAtProbe (hh : ν.flow.Lost () h) : Idle T ν (reconsiderAtProbe h f o) := by
  unfold reconsiderAtProbe
  split
  · exact (idle_lose hh).discard_left
  · exact follows_pure
  · exact idle_pass hh

/-- **A flow is brought up to date as its counterpart is.** -/
theorem follows_reconsider (ha : FollowsArrival T ν arrive arrive')
    (hr : FollowsRefresh T ν refresh refresh') (hh : ν.flow.Kept h h')
    (ho : Option.Rel T.pattern o o') :
    Follows T ν (reconsider arrive refresh h o) (reconsider arrive' refresh' h' o') := by
  refine tracks_flow?_bind hh fun l l' hl ↦ ?_
  cases hl with
  | none => exact follows_pure
  | @some f f' hff =>
    refine tracks_node_bind hff.node fun k k' hk ↦ ?_
    have hrole := hk.role
    generalize k.role = r at hrole
    generalize k'.role = r' at hrole
    cases hrole with
    | rule hrule => exact follows_reconsiderAtRule ha hr hh hff hrule ho
    | source => exact follows_pure
    | probe _ =>
      exact (follows_reconsiderAtProbe hh hff ho).next fun ν₁ hν₁ ↦
        follows_notify (hff.node.grow hν₁.node) (hh.grow hν₁.flow)
          (tellings_changed (hh.grow hν₁.flow))

/-- A lost flow is brought up to date, and only what is lost changes. -/
theorem idle_reconsider (ha : IdlesArrival T ν arrive) (hr : IdlesRefresh T ν refresh)
    (hh : ν.flow.Lost () h) : Idle T ν (reconsider arrive refresh h o) := by
  refine tracks_flow?_left hh fun l _ ↦ ?_
  split
  · refine tracks_node_left fun _ _ k _ _ ↦ ?_
    split
    · exact idle_reconsiderAtRule ha hr hh
    · exact (idle_reconsiderAtProbe hh).next fun ν₁ hν₁ ↦ idle_notify (hh.grow hν₁.flow)
    · exact follows_pure
  · exact follows_pure

/-- **With at least as much room a flow is refreshed just as well.** -/
theorem followsRefresh_refreshWithin {room room' : Nat} (hle : room ≤ room') :
    FollowsRefresh T ν (refreshWithin room) (refreshWithin room') := by
  induction room generalizing room' ν with
  | zero => exact fun _ _ _ _ _ _ _ _ ↦ tracks_tooDeep
  | succ room ih =>
    obtain ⟨room', rfl⟩ := Nat.exists_eq_add_of_le' hle
    have hle := Nat.le_of_succ_le_succ hle
    exact fun ν' h h' o o' hν hh ho ↦ follows_visit <|
      follows_reconsider (followsArrival_arriveWithin hle) (ih hle) hh ho

/-- Whatever room is left, refreshing a lost flow only concerns what is lost. -/
theorem idlesRefresh_refreshWithin (room : Nat) : IdlesRefresh T ν (refreshWithin room) := by
  induction room generalizing ν with
  | zero => exact fun _ _ _ _ _ ↦ tracks_tooDeep
  | succ room ih =>
    refine fun ν' h o hν hh ↦ idle_of_lost hh fun hinexact ↦ idle_visit hinexact ?_ ?_
    · exact (tame_reconsider (tame_arriveWithin room) (tame_refreshWithin room) h o).measured
    · exact idle_reconsider (idlesArrival_arriveWithin room) ih hh

/-! ### Entry points -/

/-- **The second run has at least as much room left.** -/
theorem tracks_room : Tracks T ν room room fun _ r r' ↦ r ≤ r' := fun _ _ habreast ↦
  tracksAt_of_run rfl rfl (.refl ν) habreast habreast.twins.budget.maxDepth

/-- Asking for room changes nothing. -/
theorem idle_room : Idle T ν room := fun _ _ habreast ↦
  tracksAt_of_run rfl rfl (.refl ν) habreast trivial

/-- A flow arrives as its counterpart does. -/
theorem followsArrival_arrive : FollowsArrival T ν Engine.arrive Engine.arrive := by
  intro ν' key key' h h' _ hkey hh p q habreast hplaced a p' hrun
  have hle := habreast.twins.budget.maxDepth
  exact followsArrival_arriveWithin hle ν' key key' h h'
    (.refl ν') hkey hh p q habreast hplaced a p' hrun

/-- A lost flow arrives among lost flows. -/
theorem idlesArrival_arrive : IdlesArrival T ν Engine.arrive := fun _ key h _ hkey hh ↦
  idle_room.bind_left fun ν₁ _ hν₁ _ ↦ idlesArrival_arriveWithin _ ν₁ key h (.refl ν₁)
    (hkey.imp fun _ hx ↦ hν₁.node _ _ hx) (hh.grow hν₁.flow)

/-- **A flow is refreshed as its counterpart is.** -/
theorem follows_refresh (hh : ν.flow.Kept h h') (ho : Option.Rel T.pattern o o') :
    Follows T ν (Engine.refresh h o) (Engine.refresh h' o') :=
  tracks_room.bind fun ν₁ _ _ hν₁ hle ↦
    followsRefresh_refreshWithin hle ν₁ h h' o o' (.refl ν₁) (hh.grow hν₁.flow) ho

/-- Refreshing a lost flow only concerns what is lost. -/
theorem idle_refresh (hh : ν.flow.Lost () h) : Idle T ν (Engine.refresh h o) :=
  idle_room.bind_left fun ν₁ _ hν₁ _ ↦
    idlesRefresh_refreshWithin _ ν₁ h o (.refl ν₁) (hh.grow hν₁.flow)

/-- A flow has headers if and only if its counterpart has. -/
theorem isAlive_eq (hff : T.Flows ν f f') : f'.isAlive = f.isAlive := by
  have hprocessed := hff.processed
  rw [Flow.isAlive, Flow.isAlive]
  generalize f.processed = w at hprocessed
  generalize f'.processed = w' at hprocessed
  cases hprocessed with
  | none => rfl
  | some hs => exact congrArg (!·) (T.isEmpty hs)

/-- What is asked of a flow and of its counterpart has the same answer. -/
theorem any_eq {l l' : Option Flow} {u u' : Flow → Bool} (hl : Option.Rel (T.Flows ν) l l')
    (hu : ∀ f f', T.Flows ν f f' → u' f' = u f) : l'.any u' = l.any u :=
  (optionRel_any hl fun f f' hff ↦ (hu f f' hff).symm).symm

/-- **The flows of a node are sent down a new pipe.** -/
theorem follows_sendFlows (hkey : ν.node.Kept key key') (hfwd : ν.pipe.Kept fwd fwd') :
    Follows T ν (sendFlows key fwd) (sendFlows key' fwd') := by
  refine tracks_node_bind hkey fun k k' hk ↦ follows_forM hk.flows (fun ν₁ h h' hν₁ hh ↦ ?_)
    fun ν₁ h hν₁ hh ↦ ?_
  · refine tracks_flow?_bind (hh.grow hν₁.flow) fun l l' hl ↦ ?_
    rw [any_eq (u := fun f ↦ !f.looped && f.isAlive) hl fun f f' hff ↦ by
      rw [hff.looped, isAlive_eq hff]]
    split
    · exact follows_send followsArrival_arrive (hkey.grow hν₁.node) (hh.grow hν₁.flow)
        (hfwd.grow hν₁.pipe)
    · exact follows_pure
  · refine tracks_flow?_left (hh.grow hν₁.flow) fun l _ ↦ ?_
    split
    · exact idle_send idlesArrival_arrive (hh.grow hν₁.flow)
    · exact follows_pure

/-- The flows of a lost source are sent. -/
theorem idle_sendFlows (hkey : ν.node.Lost () key) : Idle T ν (sendFlows key fwd) := by
  refine tracks_node_left fun _ _ k hT hnode ↦ ?_
  refine idle_forM fun h hh ν₁ hν₁ ↦ ?_
  have hh := ((hT.node_lost hkey hnode).flows h hh).grow hν₁.flow
  refine tracks_flow?_left hh fun l _ ↦ ?_
  split
  · exact idle_send idlesArrival_arrive hh
  · exact follows_pure

/-- **Flows are pulled down the pipes that lead to a node.** -/
theorem follows_pull (hkey : ν.node.Kept key key') : Follows T ν (pull key) (pull key') := by
  refine tracks_node_bind hkey fun k k' hk ↦ follows_forM hk.prev (fun ν₁ b b' hν₁ hb ↦ ?_)
    fun ν₁ b hν₁ hb ↦ ?_
  · refine tracks_pipe?_bind (hb.grow hν₁.pipe) fun l l' hl ↦ ?_
    cases hl with
    | none => exact follows_pure
    | some hside =>
      exact tracks_pipe_bind hside.reverse fun _ _ hfwd ↦ follows_sendFlows hfwd.node hside.reverse
  · refine tracks_pipe?_left fun l hl ↦ ?_
    split
    · rename_i side
      have hback := hl side .rear rfl (hb.grow hν₁.pipe)
      exact tracks_pipe_left fun fwd _ hfwd ↦ idle_sendFlows (hfwd .front hback.2).1
    · exact follows_pure

/-- **The flows at a node are refreshed**, with those of lost sources. -/
theorem follows_refreshFlows {ports : PortSet} (hkey : ν.node.Kept key key')
    (ho : Option.Rel T.pattern o o') :
    Follows T ν (refreshFlows key ports o) (refreshFlows key' ports o') := by
  refine tracks_node_bind hkey fun k k' hk ↦ follows_forM hk.flows (fun ν₁ h h' hν₁ hh ↦ ?_)
    fun ν₁ h hν₁ hh ↦ ?_
  · refine tracks_flow?_bind (hh.grow hν₁.flow) fun l l' hl ↦ ?_
    rw [any_eq (u := fun f ↦ ports.contains f.port) hl fun f f' hff ↦ by rw [hff.port]]
    split
    · exact follows_refresh (hh.grow hν₁.flow) ho
    · exact follows_pure
  · refine tracks_flow?_left (hh.grow hν₁.flow) fun l _ ↦ ?_
    split
    · exact idle_refresh (hh.grow hν₁.flow)
    · exact follows_pure

end HeaderFlow.Engine
