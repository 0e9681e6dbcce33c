import HeaderFlow.Proofs.Network.TwinDrop

/-!
# Arriving in twin networks

A flow that arrives is tracked by its counterpart, which arrives at the counterpart of the node,
loses what stands for what the flow loses, and goes on down the same pipes. **A lost flow goes on
among lost flows**: whatever it meets, nothing of it is in the twin.

Each function of the engine gets two lemmas, in the order in which they call one another:
`follows_f` for a flow that is kept, and `idle_f` for a flow that is lost. Both are read off the
definition of `f` with the rules for the elementary steps, so each step of the function is one line
of its proof.

## The recursion

A flow that is sent on arrives at the next node, which sends it on. The functions on the way take
the one that receives flows as an argument (`arrive`), so their lemmas assume of it what is to be
shown in the end: `FollowsArrival` of the two ways of taking flows in, `IdlesArrival` of the first
one. The knot is tied by induction on the room that is left (`followsArrival_arriveWithin`,
`idlesArrival_arriveWithin`): with no room left the first run does not come to its end, and **with
at least as much room the second run arrives just as well**.

A flow is said to be `Placed` where it arrives since the engine is handed both, and a flow that is
lost must not be taken for one that is kept because of the node.
-/

namespace HeaderFlow.Engine

open Checked (tracks_ok)

variable {n m : Nat} {T : Comparison n m} {ν : Naming} {net net' : Network} {key key' : NodeKey}
  {h h' fwd fwd' : Handle} {f f' : Flow} {side side' back back' : Pipe} {s s' out out' : Space}
  {port : Port} {measure : Measure} {arrive arrive' : NodeKey → Handle → Engine Unit}
  {p q : Progress}

/-! ### Listing a flow -/

/-- A new child has a greater rank. -/
theorem ranked_addChild {rank : Handle → Nat} {F : Arena Flow} {c : Handle} (hR : Ranked rank F)
    (hlt : rank h < rank c) :
    Ranked rank (F.modify h fun f ↦ { f with children := f.children ++ [c] }) :=
  hR.modify fun f _ ↦ ⟨rfl, fun d hd ↦ (List.mem_append.1 hd).imp_right fun hd ↦ by
    rwa [List.mem_singleton.1 hd]⟩

/-- A flow and its counterpart are listed at their nodes. -/
theorem follows_register (hkey : ν.node.Kept key key') (hh : ν.flow.Kept h h') :
    Follows T ν (register key h) (register key' h') := by
  refine Follows.next ?_ fun ν' hν p q habreast ↦ ?_
  · exact follows_updateNode hkey (fun _ ↦ ⟨rfl, rfl⟩) fun k k' hk ↦ { hk with
      flows := hk.flows.append (.single hh) }
  have hh := hh.grow hν.flow
  refine tracksAt_flow_bind habreast hh fun f f' hf hff ↦ ?_
  have hparent := hff.parent
  generalize hp : f.parent = o at hparent
  generalize f'.parent = o' at hparent
  cases hparent with
  | none => exact follows_pure p q habreast
  | @some r r' hr =>
    have hT := habreast.twins
    refine tracksAt_of_run rfl rfl (.refl ν') ⟨?_, habreast.bare, habreast.reports⟩ trivial
    exact { hT with
      flows := hT.flows.modify hr fun g g' _ _ hg ↦ { hg with
        children := hg.children.append (.single hh) }
      ranked := hT.ranked.imp fun rank hR ↦ ranked_addChild hR ((hR h f hf).1 r hp) }

/-- A lost flow is listed. -/
theorem idle_register (hh : ν.flow.Lost () h) : Idle T ν (register key h) := by
  refine Idle.next ?_ fun ν' hν p q habreast ↦ ?_
  · refine idle_updateNode (fun _ ↦ rfl) (fun k k' _ hk ↦ { hk with flows := ?_ }) fun k _ hk ↦
      { hk with flows := fun g hg ↦ ?_ }
    · have hflows := hk.flows.append (.skip hh .nil)
      rwa [List.append_nil] at hflows
    · rcases List.mem_append.1 hg with hg | hg
      · exact hk.flows g hg
      · exact List.mem_singleton.1 hg ▸ hh
  have hh := hh.grow hν.flow
  have hT := habreast.twins
  refine tracksAt_flow_left fun f hf ↦ ?_
  cases hp : f.parent with
  | none => exact follows_pure p q habreast
  | some r =>
    have hr := (hT.flows.lost h () hh f hf).parent r hp
    refine idleAt_update habreast { hT with
      flows := hT.flows.modify_lost hr fun g hg ↦ { hg with children := fun c hc ↦ ?_ }
      ranked := hT.ranked.imp fun rank hR ↦ ranked_addChild hR ((hR h f hf).1 r hp) }
    rcases List.mem_append.1 hc with hc | hc
    · exact hg.children c hc
    · exact List.mem_singleton.1 hc ▸ hh

/-- Where flows are and what nodes do is the same after a flow was listed. -/
theorem Leads.rule_of_register (hl : Leads (Engine.register key h) net () net')
    (hplaced : ∀ f, net.flows.find? h = some f → f.node = key) {k : Node} {r : Rule}
    (hk : net.nodeAt? key = some k) (hr : k.role = .rule r) :
    ∀ f l, net'.flows.find? h = some f → net'.nodeAt? f.node = some l → l.rule?.isSome = true := by
  rw [Engine.register, leads_updateNode_bind, leads_flow_bind] at hl
  obtain ⟨g, hg, hl⟩ := hl
  have hrule : ∀ l,
      (withNode net key fun n ↦ { n with flows := n.flows ++ [h] }).nodeAt? key = some l →
      l.rule?.isSome = true := by
    intro l hl
    rw [nodeAt?_withNode (by exact fun _ _ hkey ↦ hkey), hk, Option.map_some, if_pos rfl] at hl
    obtain rfl := Option.some.inj hl
    simp [Node.rule?, hr]
  intro f l hf hnode
  cases hp : g.parent with
  | none =>
    rw [hp] at hl
    obtain ⟨-, rfl⟩ := leads_pure.1 hl
    exact hrule l (hplaced f hf ▸ hnode)
  | some r =>
    rw [hp] at hl
    obtain rfl := leads_updateFlow.1 hl
    have hf : (net.flows.modify r fun f ↦ { f with children := f.children ++ [h] }).find? h =
        some f := hf
    rw [Arena.find?_modify] at hf
    have hplace : f.node = key := by
      split at hf
      · rename_i heq
        obtain ⟨f₀, hf₀, rfl⟩ := Option.map_eq_some_iff.1 hf
        exact hplaced f₀ (heq ▸ hf₀)
      · exact hplaced f hf
    exact hrule l (hplace ▸ hnode)

/-! ### What leaves a node -/

/-- The same headers are taken off for earlier rules. -/
theorem tracks_subtractInfluences (port : Port) (ks : List Handle) (hs : T.space s s') :
    Tracks T ν (subtractInfluences port ks s) (subtractInfluences port ks s') fun _ t t' ↦
      T.space t t' := by
  induction ks generalizing s s' with
  | nil => exact tracks_pure hs
  | cons k ks ih =>
    refine tracks_ask_bind (P := T.Influences ν) (fun net net' hT i hi ↦ ?_) fun i i' hi ↦ ?_
    · obtain ⟨i', hi', hii⟩ := hT.influences.of_live (get_eq_ok.1 hi)
      exact ⟨i', get_eq_ok.2 hi', hii⟩
    · rw [hi.ports]
      split
      · exact tracks_check_bind (T.cut hs hi.common) fun _ _ ht ↦ ih ht
      · exact ih hs

/-- Taking headers off changes nothing in the network. -/
theorem idle_subtractInfluences (port : Port) (ks : List Handle) (s : Space) :
    Idle T ν (subtractInfluences port ks s) := by
  induction ks generalizing s with
  | nil => exact tracks_pure trivial
  | cons k ks ih =>
    refine tracks_ask_left fun _ _ i _ _ ↦ ?_
    split
    · exact tracks_check_left fun t _ ↦ ih t
    · exact ih s

/-- What a flow sends on has nothing to do with where it came from. -/
theorem lightens_processed (o : Option Space) : Lightens fun f ↦ { f with processed := o } :=
  ⟨fun _ ↦ rfl, fun _ ↦ List.Subset.refl _⟩

theorem lightens_input (s : Space) : Lightens fun f ↦ { f with input := s } :=
  ⟨fun _ ↦ rfl, fun _ ↦ List.Subset.refl _⟩

theorem lightens_pass : Lightens fun f ↦ { f with processed := some f.input } :=
  ⟨fun _ ↦ rfl, fun _ ↦ List.Subset.refl _⟩

/-- What leaves a flow and its counterpart is changed. -/
theorem follows_process {o o' : Option Space} (hh : ν.flow.Kept h h')
    (ho : Option.Rel T.space o o') :
    Follows T ν (updateFlow h fun f ↦ { f with processed := o })
      (updateFlow h' fun f ↦ { f with processed := o' }) :=
  follows_updateFlow hh (lightens_processed o) fun _ _ hf ↦ { hf with processed := ho }

/-- What leaves a lost flow is changed. -/
theorem idle_process {o : Option Space} (hh : ν.flow.Lost () h) :
    Idle T ν (updateFlow h fun f ↦ { f with processed := o }) :=
  idle_updateFlow hh (lightens_processed o) fun _ hf ↦ { hf with }

/-- Headers are rewritten alike. -/
theorem tracks_rewrite {r r' : Rule} (hr : T.Rules r r') (hs : T.space s s') :
    Checked.Tracks (r.rewrite s) (r'.rewrite s') T.space := by
  have hw := hr.overwrite
  rw [Rule.rewrite, Rule.rewrite]
  generalize r.overwrite = o at hw
  generalize r'.overwrite = o' at hw
  cases hw with
  | some hw => exact T.overwrite hs hw.1 hw.2
  | none => exact tracks_ok hs

/-- Masks of rules that are alike fit. -/
theorem rel_mask? {r r' : Rule} (hr : T.Rules r r') : Option.Rel T.mask r.mask? r'.mask? :=
  optionRel_map hr.overwrite fun _ _ hw ↦ hw.1

/-- **Something leaves a flow if and only if something leaves its counterpart.** -/
theorem tracks_recompute (hkey : ν.node.Kept key key') (hh : ν.flow.Kept h h') :
    Tracks T ν (recompute key h) (recompute key' h') fun _ b b' ↦ b' = b := by
  refine tracks_node_bind hkey fun k k' hk ↦ ?_
  have hrule := hk.rule?
  generalize k.rule? = o at hrule
  generalize k'.rule? = o' at hrule
  cases hrule with
  | none => exact tracks_pure rfl
  | @some r r' hr =>
    refine tracks_flow_bind hh fun f f' hff ↦ ?_
    rw [hff.port, hr.influencedBy]
    refine (tracks_subtractInfluences f.port r.influencedBy hff.input).bind fun ν₁ s s' hν hs ↦ ?_
    refine tracks_check_bind (T.compact hs (rel_mask? hr)) fun t t' ht ↦ ?_
    rw [T.isEmpty ht]
    split
    · exact (follows_process (hh.grow hν.flow) .none).next fun _ _ ↦ tracks_pure rfl
    · refine tracks_check_bind (tracks_rewrite hr ht) fun u u' hu ↦ ?_
      exact (follows_process (hh.grow hν.flow) (.some hu)).next fun _ _ ↦ tracks_pure rfl

/-- What leaves a lost flow is computed again. -/
theorem idle_recompute (hh : ν.flow.Lost () h) : Idle T ν (recompute key h) := by
  refine tracks_node_left fun _ _ k _ _ ↦ ?_
  split
  · refine tracks_flow_left hh fun f _ ↦ ?_
    refine (idle_subtractInfluences _ _ _).bind_left fun ν₁ s hν _ ↦ tracks_check_left fun t _ ↦ ?_
    split
    · exact (idle_process (hh.grow hν.flow)).next fun _ _ ↦ tracks_pure trivial
    · exact tracks_check_left fun u _ ↦
        (idle_process (hh.grow hν.flow)).next fun _ _ ↦ tracks_pure trivial
  · exact tracks_pure trivial

/-! ### Going down a pipe -/

/-- Both flows have come back to a rule, or neither has. -/
theorem tracks_blocked (hkey : ν.node.Kept key key') (hh : ν.flow.Kept h h') :
    Tracks T ν (blocked key h port) (blocked key' h' port) fun _ b b' ↦ b' = b := by
  refine tracks_node_bind hkey fun k k' hk ↦ ?_
  rw [hk.outputLayer]
  split
  · exact tracks_pure rfl
  · exact (tracks_ask fun _ _ hT ↦ hT.enteredBy port (hT.lineage (.some hh))).imp
      fun _ _ _ _ hab ↦ hab.symm

theorem idle_blocked : Idle T ν (blocked key h port) := by
  refine tracks_node_left fun _ _ k _ _ ↦ ?_
  split
  · exact tracks_pure trivial
  · exact idle_ask

/-- The headers that fit through a pipe are alike. -/
theorem tracks_pipeOut (hs : T.space s s') (hside : T.Pipes ν side side') :
    Checked.Tracks (pipeOut s side) (pipeOut s' side') T.space :=
  (T.clip hs hside.pattern).bind fun _ _ ht ↦ T.compact ht .none

/-- A part of the headers stays behind in both runs. -/
theorem tracks_measured (hside : T.Pipes ν side side') (hs : T.space s s')
    (hout : T.space out out') :
    Checked.Tracks
      (match measure with
        | .flow => out.isStrictSubset s
        | .pipe => out.isStrictSubset (.ofPattern side.pattern))
      (match measure with
        | .flow => out'.isStrictSubset s'
        | .pipe => out'.isStrictSubset (.ofPattern side'.pattern)) Eq := by
  cases measure with
  | flow => exact T.isStrictSubset hout hs
  | pipe => exact T.isStrictSubset hout (T.ofPattern hside.pattern)

/-- A report of lost headers is tracked by one that is alike. -/
theorem follows_reportLost (hkey : ν.node.Kept key key') (hh : ν.flow.Kept h h')
    (hside : T.Pipes ν side side') (hback : T.Pipes ν back back') (hs : T.space s s')
    (hout : T.space out out') :
    Follows T ν (reportLost key h side back s out measure)
      (reportLost key' h' side' back' s' out' measure) := by
  refine tracks_network_bind fun net net' hT ↦ ?_
  rw [hT.settings.checkBlackholes]
  split
  · exact follows_pure
  refine tracks_check_bind (tracks_measured hside hs hout) ?_
  rintro lost _ rfl
  split
  · refine tracks_node_bind hkey fun k k' hk ↦ tracks_node_bind hback.node fun l l' hl ↦ ?_
    refine tracks_event_bind fun e e' he ↦ ?_
    have hsame : T.exact → k'.id = k.id ∧ l'.id = l.id ∧ h' = h := fun he ↦
      ⟨hk.id_eq (T.rename_of_exact he), hl.id_eq (T.rename_of_exact he), hT.flows.eq_of_kept he hh⟩
    refine follows_report (fun hexact ↦ ?_) fun hevents ↦ ?_
    · obtain ⟨hk, hl, rfl⟩ := hsame hexact
      rw [hk, hl, hside.port]
      rfl
    · obtain ⟨hk, hl, rfl⟩ := hsame (T.exact_of_events hevents)
      rw [hk, hl, hside.port, he hevents]
  · exact follows_pure

/-- If something is lost, such a report need not be made. -/
theorem idle_reportLost (hinexact : ¬ T.exact) :
    Idle T ν (reportLost key h side back s out measure) := by
  refine tracks_network_left fun _ _ _ ↦ ?_
  split
  · exact follows_pure
  · refine tracks_check_left fun lost _ ↦ ?_
    split
    · exact tracks_node_left fun _ _ _ _ _ ↦ tracks_node_left fun _ _ _ _ _ ↦
        idle_tells hinexact (tells_event_report _)
    · exact follows_pure

/-- A flow is told to arrive where it is. -/
def Placed (net : Network) (key : NodeKey) (h : Handle) : Prop :=
  ∀ f, net.flows.find? h = some f → f.node = key

/-- A way of taking flows in is tracked by another. -/
def FollowsArrival (T : Comparison n m) (ν : Naming)
    (arrive arrive' : NodeKey → Handle → Engine Unit) : Prop :=
  ∀ ν' key key' h h', ν.Grows ν' → ν'.node.Kept key key' → ν'.flow.Kept h h' →
    ∀ p q, T.Abreast ν' p q → Placed p.network key h →
      TracksAt T ν' (arrive key h) (arrive' key' h') (fun _ _ _ ↦ True) p q

/-- A way of taking flows in is idle for lost ones. -/
def IdlesArrival (T : Comparison n m) (ν : Naming)
    (arrive : NodeKey → Handle → Engine Unit) : Prop :=
  ∀ ν' key h, ν.Grows ν' → (∃ x, ν'.node key = some x) → ν'.flow.Lost () h →
    Idle T ν' (arrive key h)

/-- More names were added meanwhile. -/
theorem FollowsArrival.grow {ν' : Naming} (ha : FollowsArrival T ν arrive arrive')
    (hν : ν.Grows ν') :
    FollowsArrival T ν' arrive arrive' := fun ν'' key key' h h' hν' ↦
  ha ν'' key key' h h' (hν.trans hν')

theorem IdlesArrival.grow {ν' : Naming} (ha : IdlesArrival T ν arrive) (hν : ν.Grows ν') :
    IdlesArrival T ν' arrive := fun ν'' key h hν' ↦ ha ν'' key h (hν.trans hν')

/-- **A new flow arrives where it is stored to be.** -/
theorem follows_insertFlow_arrive {u u' : Handle → Flow} (ha : FollowsArrival T ν arrive arrive')
    (hkey : ν.node.Kept key key')
    (hu : ∀ ν' h h', ν.Grows ν' → ν'.flow.Kept h h' → T.Flows ν' (u h) (u' h'))
    (hchildren : ∀ h, (u h).children = [])
    (hparent : ∀ h p, (u h).parent = some p → ∃ x, ν.flow p = some x)
    (hplace : ∀ h, (u h).node = key) :
    Follows T ν (insertFlow u >>= arrive key) (insertFlow u' >>= arrive' key') := by
  intro p q habreast
  refine (tracks_insertFlow hu hchildren hparent p q habreast).bind
    fun ν' h h' p' q' hν hrun habreast' hh ↦ ?_
  refine ha ν' key key' h h' hν (hkey.grow hν.node) hh p' q' habreast' fun f hf ↦ ?_
  obtain ⟨rfl, rfl⟩ := EStateM.Result.ok.inj hrun
  obtain rfl := Option.some.inj ((Arena.find?_insert_self habreast.twins.flows.valid).symm.trans hf)
  exact hplace _

/-- Headers are sent on as their counterparts are. -/
theorem follows_sendHeaders (ha : FollowsArrival T ν arrive arrive') (hkey : ν.node.Kept key key')
    (hh : ν.flow.Kept h h') (hfwd : ν.pipe.Kept fwd fwd') (hside : T.Pipes ν side side')
    (hff : T.Flows ν f f') (hs : T.space s s') :
    Follows T ν (sendHeaders arrive key h fwd side measure f s)
      (sendHeaders arrive' key' h' fwd' side' measure f' s') := by
  refine tracks_check_bind (tracks_pipeOut hs hside) fun out out' hout ↦ ?_
  rw [T.isEmpty hout]
  split
  · exact follows_pure
  refine tracks_pipe_bind hside.reverse fun back back' hback ↦ ?_
  refine (follows_reportLost hkey hh hside hback hs hout).next fun ν' hν ↦ ?_
  have hnode := hback.node.grow hν.node
  refine follows_insertFlow_arrive (ha.grow hν) hnode (fun ν'' c c' hν' hc ↦ ?_) (fun _ ↦ rfl)
    (fun c p hp ↦ ?_) fun _ ↦ rfl
  · exact {
      node := hnode.grow hν'.node
      source := hff.source.grow (hν.trans hν').flow
      input := hout
      processed := .none
      port := hback.port
      pipe := .some (hfwd.grow (hν.trans hν').pipe)
      parent := .some (hh.grow (hν.trans hν').flow)
      children := .nil
      looped := rfl }
  · obtain rfl := Option.some.inj hp
    exact ⟨_, hh.grow hν.flow⟩

/-- **The child of a lost flow is lost.** -/
theorem idle_sendHeaders (ha : IdlesArrival T ν arrive) (hh : ν.flow.Lost () h)
    (hf : Comparison.LostFlow ν f) : Idle T ν (sendHeaders arrive key h fwd side measure f s) := by
  refine idle_of_lost hh fun hinexact ↦ tracks_check_left fun out _ ↦ ?_
  split
  · exact follows_pure
  refine tracks_pipe_left fun back ⟨x, hback⟩ _ ↦ ?_
  refine (idle_reportLost hinexact).next fun ν' hν ↦ ?_
  refine (idle_insertFlow hinexact (fun ν'' c hν' hc ↦ ?_) (fun _ ↦ rfl) fun c p hp ↦ ?_).bind_left
    fun ν'' c hν' hc ↦ ha ν'' back.node c (hν.trans hν') ⟨x, (hν.trans hν').node _ _ hback⟩ hc
  · exact {
      node := ⟨x, (hν.trans hν').node _ _ hback⟩
      source := hf.source.grow (hν.trans hν').flow
      parent := fun p hp ↦ Option.some.inj hp ▸ hh.grow (hν.trans hν').flow
      children := by simp
      root := by rintro ⟨⟩ }
  · obtain rfl := Option.some.inj hp
    exact ⟨_, hh.grow hν.flow⟩

/-- **A flow is sent down a pipe as its counterpart is.** -/
theorem follows_send (ha : FollowsArrival T ν arrive arrive') (hkey : ν.node.Kept key key')
    (hh : ν.flow.Kept h h') (hfwd : ν.pipe.Kept fwd fwd') :
    Follows T ν (send arrive key h fwd measure) (send arrive' key' h' fwd' measure) := by
  refine tracks_pipe?_bind hfwd fun o o' ho ↦ ?_
  cases ho with
  | none => exact follows_pure
  | @some side side' hside =>
    dsimp only
    rw [hside.port]
    refine (tracks_blocked hkey hh).bind fun ν₁ b b' hν hb ↦ ?_
    rw [hb]
    split
    · exact follows_pure
    have hh := hh.grow hν.flow
    refine tracks_flow_bind hh fun f f' hff ↦ ?_
    have hprocessed := hff.processed
    generalize f.processed = o at hprocessed
    generalize f'.processed = o' at hprocessed
    cases hprocessed with
    | none => exact follows_pure
    | some hs =>
      exact follows_sendHeaders (ha.grow hν) (hkey.grow hν.node) hh (hfwd.grow hν.pipe)
        (hside.grow hν) hff hs

/-- A lost flow is sent down a pipe. -/
theorem idle_send (ha : IdlesArrival T ν arrive) (hh : ν.flow.Lost () h) :
    Idle T ν (send arrive key h fwd measure) := by
  refine tracks_pipe?_left fun o _ ↦ ?_
  split
  · refine idle_blocked.bind_left fun ν₁ b hν _ ↦ ?_
    split
    · exact follows_pure
    have hh := hh.grow hν.flow
    refine tracks_flow_left hh fun f hf ↦ ?_
    split
    · exact idle_sendHeaders (ha.grow hν) hh hf
    · exact follows_pure
  · exact follows_pure

/-- A flow is sent down all pipes as its counterpart is. -/
theorem follows_sendAll (ha : FollowsArrival T ν arrive arrive') (hkey : ν.node.Kept key key')
    (hh : ν.flow.Kept h h') : Follows T ν (sendAll arrive key h) (sendAll arrive' key' h') :=
  tracks_node_bind hkey fun _ _ hk ↦ follows_forM_all hk.next fun _ _ _ hν hfwd ↦
    follows_send (ha.grow hν) (hkey.grow hν.node) (hh.grow hν.flow) (hfwd.grow hν.pipe)

/-- A lost flow is sent down all pipes. -/
theorem idle_sendAll (ha : IdlesArrival T ν arrive) (hh : ν.flow.Lost () h) :
    Idle T ν (sendAll arrive key h) :=
  tracks_node_left fun _ _ _ _ _ ↦ idle_forM fun _ _ _ hν ↦
    idle_send (ha.grow hν) (hh.grow hν.flow)

/-! ### Arriving -/

/-- A flow and its counterpart are found to go round. -/
theorem follows_markLooped (hkey : ν.node.Kept key key') (hh : ν.flow.Kept h h') (first : NodeId) :
    Follows T ν (markLooped key h first) (markLooped key' h' first) := by
  refine Follows.next (follows_updateFlow (v := fun f ↦ { f with looped := true }) hh
    ⟨fun _ ↦ rfl, fun _ ↦ List.Subset.refl _⟩ fun _ _ hf ↦ { hf with looped := rfl }) fun ν' hν ↦ ?_
  refine tracks_of_twins fun ⟨_, _, hT⟩ ↦ ?_
  refine tracks_node_bind (hkey.grow hν.node) fun k k' hk ↦ tracks_event_bind fun e e' he ↦ ?_
  have hsame : T.exact → k'.id = k.id ∧ h' = h := fun he ↦
    ⟨hk.id_eq (T.rename_of_exact he), hT.flows.eq_of_kept he (hh.grow hν.flow)⟩
  refine follows_report (fun hexact ↦ ?_) fun hevents ↦ ?_
  · obtain ⟨hk, rfl⟩ := hsame hexact
    rw [hk]
    rfl
  · obtain ⟨hk, rfl⟩ := hsame (T.exact_of_events hevents)
    rw [hk, he hevents]

/-- A lost flow is found to go round. -/
theorem idle_markLooped (hh : ν.flow.Lost () h) (first : NodeId) :
    Idle T ν (markLooped key h first) := by
  refine idle_of_lost hh fun hinexact ↦ ?_
  refine Idle.next (idle_updateFlow hh ⟨fun _ ↦ rfl, fun _ ↦ List.Subset.refl _⟩
    fun _ hf ↦ { hf with }) fun ν' hν ↦ ?_
  exact tracks_node_left fun _ _ _ _ _ ↦ idle_tells hinexact (tells_event_report _)

/-- A flow passes a probe unchanged. -/
theorem follows_pass (hh : ν.flow.Kept h h') :
    Follows T ν (updateFlow h fun f ↦ { f with processed := some f.input })
      (updateFlow h' fun f ↦ { f with processed := some f.input }) :=
  follows_updateFlow hh lightens_pass fun _ _ hf ↦ { hf with processed := .some hf.input }

/-- A lost flow passes a probe. -/
theorem idle_pass (hh : ν.flow.Lost () h) :
    Idle T ν (updateFlow h fun f ↦ { f with processed := some f.input }) :=
  idle_updateFlow hh lightens_pass fun _ hf ↦ { hf with }

/-- **A flow is taken in as its counterpart is.** -/
theorem followsArrival_takeIn (ha : FollowsArrival T ν arrive arrive') :
    FollowsArrival T ν (takeIn arrive) (takeIn arrive') := by
  intro ν' key key' h h' hν hkey hh p q habreast hplaced
  have ha := ha.grow hν
  refine tracksAt_node_bind habreast hkey fun k k' hnode hk ↦ ?_
  have hrole := hk.role
  generalize hr : k.role = r at hrole
  generalize k'.role = r' at hrole
  cases hrole with
  | @rule r r' _ =>
    dsimp only
    refine (follows_register hkey hh p q habreast).bind fun ν₁ _ _ p₁ q₁ hν₁ hrun habreast₁ _ ↦ ?_
    have hT := habreast₁.twins
    have hkey := hkey.grow hν₁.node
    have hh := hh.grow hν₁.flow
    have hrule := Leads.rule_of_register ⟨p.reports, p₁.reports, hrun⟩ hplaced hnode hr
    refine tracksAt_ask_bind (hT.loopOf hh hrule) ?_
    rintro o _ - rfl
    refine (?_ : Follows T ν₁ _ _) p₁ q₁ habreast₁
    cases o with
    | some first => exact follows_markLooped hkey hh first
    | none =>
      refine (tracks_recompute hkey hh).bind fun ν₂ b b' hν₂ hb ↦ ?_
      rw [hb]
      split
      · exact follows_sendAll (ha.grow (hν₁.trans hν₂)) (hkey.grow hν₂.node) (hh.grow hν₂.flow)
      · exact follows_pure
  | source => exact follows_sendAll ha hkey hh p q habreast
  | probe =>
    dsimp only
    refine Follows.next (follows_register hkey hh) (fun ν₁ hν₁ ↦ ?_) p q habreast
    have hkey := hkey.grow hν₁.node
    have hh := hh.grow hν₁.flow
    refine (follows_pass hh).next fun ν₂ hν₂ ↦ ?_
    exact follows_notify (hkey.grow hν₂.node) (hh.grow hν₂.flow)
      (tellings_arrived (hh.grow hν₂.flow))

/-- **A lost flow is taken in, and goes on among lost flows.** -/
theorem idlesArrival_takeIn (ha : IdlesArrival T ν arrive) : IdlesArrival T ν (takeIn arrive) := by
  intro ν' key h hν hkey hh
  have ha := ha.grow hν
  refine tracks_node_left fun _ _ k _ _ ↦ ?_
  split
  · refine (idle_register hh).next fun ν₁ hν₁ ↦ ?_
    have hh := hh.grow hν₁.flow
    refine tracks_ask_left fun _ _ o _ _ ↦ ?_
    split
    · exact idle_markLooped hh _
    · refine (idle_recompute hh).bind_left fun ν₂ b hν₂ _ ↦ ?_
      split
      · exact idle_sendAll (ha.grow (hν₁.trans hν₂)) (hh.grow hν₂.flow)
      · exact follows_pure
  · refine (idle_register hh).next fun ν₁ hν₁ ↦ (idle_pass (hh.grow hν₁.flow)).next fun ν₂ hν₂ ↦ ?_
    exact idle_notify (hh.grow (hν₁.trans hν₂).flow)
  · exact idle_sendAll ha hh

/-- Nothing comes of a visit that is nested too deep. -/
theorem tracks_tooDeep {α : Type} {y : Engine α} {R : Naming → Unit → α → Prop} :
    Tracks T ν (do enter; tooDeep) y R := by
  intro p q _ a p' hrun
  have hl : Leads (do enter; tooDeep) p.network a p'.network := ⟨p.reports, p'.reports, hrun⟩
  obtain ⟨-, mid, -, hl⟩ := hl.bind
  exact absurd hl not_leads_tooDeep

/-- **With at least as much room a flow arrives just as well.** -/
theorem followsArrival_arriveWithin {room room' : Nat} (hle : room ≤ room') :
    FollowsArrival T ν (arriveWithin room) (arriveWithin room') := by
  induction room generalizing room' ν with
  | zero => exact fun _ _ _ _ _ _ _ _ p q habreast _ ↦ tracks_tooDeep p q habreast
  | succ room ih =>
    obtain ⟨room', rfl⟩ := Nat.exists_eq_add_of_le' hle
    intro ν' key key' h h' hν hkey hh p q habreast hplaced
    refine followsAt_visit habreast fun p₁ q₁ hentered habreast₁ ↦ ?_
    refine followsArrival_takeIn (ih (Nat.le_of_succ_le_succ hle)) ν' key key' h h'
      (.refl ν') hkey hh p₁ q₁ habreast₁ fun f hf ↦ hplaced f ?_
    rw [hentered] at hf
    exact hf

/-- Whatever room is left, a lost flow only concerns what is lost. -/
theorem idlesArrival_arriveWithin (room : Nat) : IdlesArrival T ν (arriveWithin room) := by
  induction room generalizing ν with
  | zero => exact fun _ _ _ _ _ _ ↦ tracks_tooDeep
  | succ room ih =>
    intro ν' key h hν hkey hh
    refine idle_of_lost hh fun hinexact ↦ ?_
    exact idle_visit hinexact (tame_takeIn (tame_arriveWithin room) key h).measured
      (idlesArrival_takeIn ih ν' key h (.refl ν') hkey hh)

end HeaderFlow.Engine
