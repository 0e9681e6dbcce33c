import HeaderFlow.Proofs.Network.TwinRefresh
import HeaderFlow.Proofs.PortSet

/-!
# Wiring of twin networks

Where a pipe is built or removed, so is its counterpart. A pipe that leaves a lost source is built
in the first network only, and **only the list of what leads to the receiving node tells of it**.

Which pipes are to be built is found out first, from links and ports. Ports are linked alike in both
networks, so a node needs the same pipes in both, except for those from lost sources
(`Nodes.wiresOf`). Since sources take no headers in, **no pipe leads to a lost source**
(`receivers`), and a lost pipe is one that leaves one.

Both networks list the pipes of a node in the order in which they were built. The list of pipes that
leave a kept node is the same in both, and the one of those that lead to it is culled. So going
through the first kind of list is tracked step by step, while the second run skips what it never
had.
-/

namespace HeaderFlow

open Checked (tracks_ok)

variable {n m : Nat} {T : Comparison n m} {ν ν' : Naming} {net net' : Network} {key key' : NodeKey}
  {h h' fwd fwd' : Handle} {k k' r r' : Node} {p p' : Pattern} {port inPort outPort : Port}

/-! ### Wires -/

namespace Comparison

/-- The pipe that is to be built and its counterpart. -/
structure Wires (T : Comparison n m) (ν : Naming) (w w' : Wire) : Prop where
  sender : ν.node.Kept w.sender w'.sender
  outPort : w'.outPort = w.outPort
  receiver : ν.node.Kept w.receiver w'.receiver
  inPort : w'.inPort = w.inPort
  pattern : T.pattern w.pattern w'.pattern

/-- A pipe that leaves a lost source. -/
structure LostWire (ν : Naming) (w : Wire) : Prop where
  sender : ν.node.Lost () w.sender
  receiver : ∃ key', ν.node.Kept w.receiver key'

/-- More names were added meanwhile. -/
theorem Wires.grow {w w' : Wire} (hw : T.Wires ν w w') (hν : ν.Grows ν') : T.Wires ν' w w' :=
  { hw with sender := hw.sender.grow hν.node, receiver := hw.receiver.grow hν.node }

/-- More names were added meanwhile, and what leaves a lost source still does. -/
theorem LostWire.grow {w : Wire} (hw : LostWire ν w) (hν : ν.Grows ν') : LostWire ν' w :=
  ⟨hw.sender.grow hν.node, hw.receiver.imp fun _ hk ↦ hk.grow hν.node⟩

/-- What a node accepts of a pattern is alike. -/
theorem Nodes.overlap (hk : T.Nodes ν k k') (hp : T.pattern p p') :
    Checked.Tracks (k.overlap p) (k'.overlap p') (Option.Rel T.pattern) := by
  have haccepts := hk.accepts
  rw [Node.overlap, Node.overlap]
  generalize k.accepts = o at haccepts
  generalize k'.accepts = o' at haccepts
  cases haccepts with
  | none => exact tracks_ok .none
  | some hq => exact T.intersect hq hp

/-- A lost source accepts nothing. -/
theorem LostNode.overlap (hk : T.LostNode ν k) : k.overlap p = .ok none := by
  rw [Node.overlap, hk.accepts]

namespace Twins

/-- Nodes that are looked up one by one have their counterparts, unless they are lost. -/
theorem nodesAt {keys keys' : List NodeKey} (hT : T.Twins ν net net')
    (hkeys : Culled ν.node.Kept (ν.node.Lost ()) keys keys') :
    Checked.Tracks (net.nodesAt keys) (net'.nodesAt keys') (Culled (T.Nodes ν) (T.LostNode ν)) := by
  induction hkeys with
  | nil => exact tracks_ok .nil
  | keep hkey _ ih =>
    rw [Network.nodesAt, Network.nodesAt, List.mapM_cons, List.mapM_cons]
    exact (hT.tracks_node hkey).bind fun k k' hk ↦ ih.bind fun ks ks' hks ↦ tracks_ok (.keep hk hks)
  | skip hkey _ ih =>
    rw [Network.nodesAt, List.mapM_cons]
    refine Checked.Tracks.bind_left fun k hk ks hks ↦ ?_
    obtain ⟨rest, hrest, hks⟩ := Checked.bind_eq_ok.1 hks
    obtain rfl := Except.ok.inj hks
    obtain ⟨ks', hks', hculled⟩ := ih rest hrest
    exact ⟨ks', hks', .skip (hT.node_lost hkey (Engine.node_eq_ok.1 hk)) hculled⟩

/-- No lost source takes headers in. -/
theorem receivers (hT : T.Twins ν net net') (port : Port) :
    Checked.Tracks (net.receivers port) (net'.receivers port)
      (Culled (T.Nodes ν) (fun _ ↦ False)) := by
  have hkeys := hT.directory.entrances port
  rw [Network.receivers, Network.receivers]
  generalize net.directory.entrances.listed port = keys,
    net'.directory.entrances.listed port = keys' at hkeys
  induction hkeys with
  | nil => exact tracks_ok .nil
  | keep hkey _ ih =>
    rw [Network.nodesAt, Network.nodesAt, List.mapM_cons, List.mapM_cons]
    exact (hT.tracks_node hkey).bind fun k k' hk ↦ ih.bind fun ks ks' hks ↦ tracks_ok (.keep hk hks)
  | skip hno => exact hno.elim

/-- Headers leave by a port at the same nodes, lost sources apart. -/
theorem senders (hT : T.Twins ν net net') (port : Port) :
    Checked.Tracks (net.senders port) (net'.senders port) (Culled (T.Nodes ν) (T.LostNode ν)) :=
  hT.nodesAt (hT.directory.exits port)

/-- A node that takes headers in is there in the twin. -/
theorem kept_of_entrance (hT : T.Twins ν net net')
    (hkey : key ∈ net.directory.entrances.listed port) : ∃ key', ν.node.Kept key key' :=
  (((hT.directory.entrances port).of_mem hkey).resolve_right id).imp fun _ h ↦ h.2

/-- A node that takes headers in at a port is there in the twin. -/
theorem kept_of_receiver {ks : List Node} (hT : T.Twins ν net net')
    (hks : net.receivers port = .ok ks) (hk : k ∈ ks) : ∃ key', ν.node.Kept k.key key' := by
  obtain ⟨ks', -, hculled⟩ := hT.receivers port ks hks
  obtain ⟨k', -, hkk⟩ := (hculled.of_mem hk).resolve_right id
  exact ⟨_, hkk.key⟩

end Twins

/-- **The same pipes are to be built to the nodes of a list.** -/
theorem Nodes.wiresTo {ks ks' : List Node} (hk : T.Nodes ν k k')
    (hks : Culled (T.Nodes ν) (fun _ ↦ False) ks ks') :
    Checked.Tracks (Network.wiresTo k outPort inPort ks) (Network.wiresTo k' outPort inPort ks')
      (Culled (T.Wires ν) (LostWire ν)) := by
  induction hks with
  | nil => exact tracks_ok .nil
  | skip hno => exact hno.elim
  | keep hr _ ih =>
    refine (hr.overlap hk.sends).bind fun o o' ho ↦ ih.bind fun ws ws' hws ↦ tracks_ok ?_
    cases ho with
    | none => exact hws
    | some hp => exact .keep ⟨hk.key, rfl, hr.key, rfl, hp⟩ hws

/-- **The same pipes are to be built from the nodes of a list**, lost sources apart. -/
theorem Nodes.wiresFrom {ks ks' : List Node} (hinj : ν.node.Injective) (hk : T.Nodes ν k k')
    (hks : Culled (T.Nodes ν) (T.LostNode ν) ks ks') :
    Checked.Tracks (Network.wiresFrom k outPort inPort ks) (Network.wiresFrom k' outPort inPort ks')
      (Culled (T.Wires ν) (LostWire ν)) := by
  induction hks with
  | nil => exact tracks_ok .nil
  | @keep s s' ks ks' hs _ ih =>
    have hoverlap : Checked.Tracks (k.overlapOther s) (k'.overlapOther s')
        (Option.Rel T.pattern) := by
      rw [Node.overlapOther, Node.overlapOther]
      by_cases hself : s.key = k.key
      · rw [if_pos hself, if_pos ((hinj.eq_iff hs.key hk.key).1 hself)]
        exact tracks_ok .none
      · rw [if_neg hself, if_neg (mt (hinj.eq_iff hs.key hk.key).2 hself)]
        exact hk.overlap hs.sends
    refine hoverlap.bind fun o o' ho ↦ ih.bind fun ws ws' hws ↦ tracks_ok ?_
    cases ho with
    | none => exact hws
    | some hp => exact .keep ⟨hs.key, rfl, hk.key, rfl, hp⟩ hws
  | @skip s ks ks' hs _ ih =>
    refine Checked.Tracks.bind_left fun o _ ws hws ↦ ?_
    obtain ⟨vs, hvs, hws⟩ := Checked.bind_eq_ok.1 hws
    obtain rfl := Except.ok.inj hws
    obtain ⟨ws', hws', hvs⟩ := ih vs hvs
    refine ⟨ws', hws', ?_⟩
    cases o with
    | none => exact hvs
    | some q => exact .skip ⟨hs.key, _, hk.key⟩ hvs

/-- **A node needs the same pipes in both networks**, those from lost sources apart. -/
theorem Nodes.wiresOf (hT : T.Twins ν net net') (hk : T.Nodes ν k k') :
    Checked.Tracks (net.wiresOf k) (net'.wiresOf k') (Culled (T.Wires ν) (LostWire ν)) := by
  have htargets : ∀ q, net'.targets q = net.targets q := fun q ↦ by
    rw [Network.targets, Network.targets, hT.topology]
  have horigins : ∀ q, net'.origins q = net.origins q := fun q ↦ by
    rw [Network.origins, Network.origins, hT.topology]
  rw [Network.wiresOf, Network.wiresOf, hk.outPorts, hk.inPorts]
  simp only [htargets, horigins]
  have hleaving : ∀ q p, Checked.Tracks (do Network.wiresTo k q p (← net.receivers p))
      (do Network.wiresTo k' q p (← net'.receivers p))
        (Culled (T.Wires ν) (LostWire ν)) := fun q p ↦
    (hT.receivers p).bind fun _ _ hks ↦ hk.wiresTo hks
  have hentering : ∀ p q, Checked.Tracks (do Network.wiresFrom k q p (← net.senders q))
      (do Network.wiresFrom k' q p (← net'.senders q))
        (Culled (T.Wires ν) (LostWire ν)) := fun p q ↦
    (hT.senders q).bind fun _ _ hks ↦ hk.wiresFrom hT.injective hks
  refine (Checked.tracks_mapM fun q _ ↦ Checked.tracks_mapM fun p _ ↦ hleaving q p).bind
    fun o o' ho ↦ ?_
  refine (Checked.tracks_mapM fun p _ ↦ Checked.tracks_mapM fun q _ ↦ hentering p q).bind
    fun i i' hi ↦
    tracks_ok ?_
  exact .flatten (List.rel_flatten (List.rel_append ho hi))

/-- What a lost source needs are pipes that leave it. -/
theorem LostNode.wiresTo {ks : List Node} {ws : List Wire} (hk : T.LostNode ν k)
    (hks : ∀ r ∈ ks, ∃ key', ν.node.Kept r.key key')
    (hws : Network.wiresTo k outPort inPort ks = .ok ws) : ∀ w ∈ ws, LostWire ν w := by
  induction ks generalizing ws with
  | nil =>
    obtain rfl := Except.ok.inj hws
    simp
  | cons r ks ih =>
    obtain ⟨hr, hks⟩ := List.forall_mem_cons.1 hks
    simp only [Network.wiresTo, Checked.bind_eq_ok] at hws
    obtain ⟨o, -, vs, hvs, hws⟩ := hws
    obtain rfl := Except.ok.inj hws
    intro w hw
    rcases List.mem_append.1 hw with hw | hw
    · obtain ⟨q, -, rfl⟩ := Option.map_eq_some_iff.1 (Option.mem_toList.1 hw)
      exact ⟨hk.key, hr⟩
    · exact ih hks hvs w hw

/-- All pipes that a lost source needs leave it. -/
theorem LostNode.wiresOf {ws : List Wire} (hT : T.Twins ν net net') (hk : T.LostNode ν k)
    (hws : net.wiresOf k = .ok ws) : ∀ w ∈ ws, LostWire ν w := by
  simp only [Network.wiresOf, hk.inPorts, Checked.bind_eq_ok] at hws
  obtain ⟨o, ho, i, hi, hws⟩ := hws
  obtain rfl := Except.ok.inj hi
  obtain rfl := Except.ok.inj hws
  intro w hw
  simp only [List.reverse_nil, List.append_nil, List.mem_flatten] at hw
  obtain ⟨ws, ⟨vs, hvs, hws⟩, hw⟩ := hw
  obtain ⟨q, -, hq⟩ := ((Checked.of_mapM_eq_ok ho).2 vs).1 hvs
  obtain ⟨p, -, hp⟩ := ((Checked.of_mapM_eq_ok hq).2 ws).1 hws
  obtain ⟨ks, hks, hp⟩ := Checked.bind_eq_ok.1 hp
  exact hk.wiresTo (fun r hr ↦ hT.kept_of_receiver hks hr) hp w hw

end Comparison

namespace Engine

/-! ### Building a pipe -/

/-- The forward side of a new pipe is listed. -/
theorem follows_addNext (hkey : ν.node.Kept key key') (hfwd : ν.pipe.Kept fwd fwd') :
    Follows T ν (alterNode key fun n ↦ { n with next := n.next ++ [fwd] })
      (alterNode key' fun n ↦ { n with next := n.next ++ [fwd'] }) :=
  follows_alterNode hkey (fun _ ↦ ⟨rfl, rfl⟩) fun _ _ hk ↦
    { hk with next := hk.next.append (.single hfwd) }

/-- The backward side of a new pipe is listed. -/
theorem follows_addPrev (hkey : ν.node.Kept key key') (hback : ν.pipe.Kept h h') :
    Follows T ν (alterNode key fun n ↦ { n with prev := n.prev ++ [h] })
      (alterNode key' fun n ↦ { n with prev := n.prev ++ [h'] }) :=
  follows_alterNode hkey (fun _ ↦ ⟨rfl, rfl⟩) fun _ _ hk ↦
    { hk with prev := hk.prev.append (.single hback) }

/-- The forward side of a lost pipe is listed with the lost source that it leaves. -/
theorem idle_addNext (hkey : ν.node.Lost () key) (hfwd : ν.pipe.Lost .front fwd) :
    Idle T ν (alterNode key fun n ↦ { n with next := n.next ++ [fwd] }) := by
  refine idle_alterNode (fun _ ↦ rfl) (fun k k' hk hkk ↦ ?_) fun k _ hk ↦
    { hk with next := fun g hg ↦ ?_ }
  · exact absurd hkey (hk ▸ hkk.key).not_lost
  · rcases List.mem_append.1 hg with hg | hg
    · exact hk.next g hg
    · exact List.mem_singleton.1 hg ▸ hfwd

/-- The backward side of a lost pipe is listed with the node that it leads to. -/
theorem idle_addPrev (hkey : ν.node.Kept key key') (hback : ν.pipe.Lost .rear h) :
    Idle T ν (alterNode key fun n ↦ { n with prev := n.prev ++ [h] }) := by
  refine idle_alterNode (fun _ ↦ rfl) (fun k k' _ hkk ↦ { hkk with prev := ?_ }) fun k hk hlost ↦ ?_
  · have hprev := hkk.prev.append (.skip hback .nil)
    rwa [List.append_nil] at hprev
  · exact absurd (hk ▸ hlost.key) hkey.not_lost

/-- **A pipe and its counterpart are built.** -/
theorem tracks_addPipe {w w' : Wire} (hw : T.Wires ν w w') :
    Tracks T ν (addPipe w) (addPipe w') fun ν' fwd fwd' ↦ ν'.pipe.Kept fwd fwd' := by
  intro p q habreast
  have hT := habreast.twins
  have hν₁ := hT.grows_putPipe (.kept q.network.pipes.nextHandle)
  have hfwd₁ := Lexicon.put_self (ν := ν.pipe) (k := p.network.pipes.nextHandle)
    (x := .kept q.network.pipes.nextHandle)
  have hT₁ := hT.insertPipe (p := ⟨w.sender, w.outPort, w.pattern, p.network.pipes.nextHandle⟩)
    (q := ⟨w'.sender, w'.outPort, w'.pattern, q.network.pipes.nextHandle⟩)
    ⟨hw.sender, hw.outPort, hw.pattern, hfwd₁⟩
  set p₁ := p.network.pipes.insert ⟨w.sender, w.outPort, w.pattern, p.network.pipes.nextHandle⟩
  set q₁ := q.network.pipes.insert ⟨w'.sender, w'.outPort, w'.pattern, q.network.pipes.nextHandle⟩
  have hν₂ := hT₁.grows_putPipe (.kept q₁.nextHandle)
  have hfwd₂ : Lexicon.Kept _ _ _ := hν₂.pipe _ _ hfwd₁
  have hback : Lexicon.Kept _ _ _ := Lexicon.put_self (ν := (ν.putPipe p.network.pipes.nextHandle
    (.kept q.network.pipes.nextHandle)).pipe) (k := p₁.nextHandle) (x := .kept q₁.nextHandle)
  have hT₂ := (hT₁.insertPipe
    (p := ⟨w.receiver, w.inPort, w.pattern, p.network.pipes.nextHandle⟩)
    (q := ⟨w'.receiver, w'.inPort, w'.pattern, q.network.pipes.nextHandle⟩)
    ⟨hw.receiver, hw.inPort, hw.pattern, hfwd₂⟩).modifyPipe hfwd₂
      (u := fun side ↦ { side with reverse := p₁.nextHandle })
      (v := fun side ↦ { side with reverse := q₁.nextHandle }) fun _ _ hp ↦
        { hp with reverse := hback }
  refine TracksAt.of_grows ?_ (hν₁.trans hν₂)
  have hsender := hw.sender.grow (hν₁.trans hν₂).node
  have hreceiver := hw.receiver.grow (hν₁.trans hν₂).node
  refine Follows.next (follows_addNext hsender hfwd₂) (fun ν₃ hν₃ ↦ ?_) { p with network := _ }
    { q with network := _ } ⟨hT₂, habreast.bare, habreast.reports⟩
  refine (follows_addPrev (hreceiver.grow hν₃.node) (hback.grow hν₃.pipe)).next fun ν₄ hν₄ ↦ ?_
  exact tracks_pure (hfwd₂.grow (hν₃.trans hν₄).pipe)

/-- **A pipe that leaves a lost source is built.** -/
theorem idle_addPipe {w : Wire} (hw : Comparison.LostWire ν w) :
    Tracks T ν (addPipe w) (pure () : Engine Unit) fun ν' fwd _ ↦ ν'.pipe.Lost .front fwd := by
  intro p q habreast
  have hT := habreast.twins
  have hinexact := hT.inexact_of_node hw.sender
  obtain ⟨key', hreceiver⟩ := hw.receiver
  have hν₁ := hT.grows_putPipe (.lost .front)
  have hfwd₁ := Lexicon.put_self (ν := ν.pipe) (k := p.network.pipes.nextHandle)
    (x := .lost PipeSide.front)
  have hT₁ := hT.insertPipe_lost .front
    (p := ⟨w.sender, w.outPort, w.pattern, p.network.pipes.nextHandle⟩) hinexact
    ⟨hw.sender, _, hfwd₁⟩
  set p₁ := p.network.pipes.insert ⟨w.sender, w.outPort, w.pattern, p.network.pipes.nextHandle⟩
  have hν₂ := hT₁.grows_putPipe (.lost .rear)
  have hfwd₂ : Lexicon.Lost _ _ _ := hν₂.pipe _ _ hfwd₁
  have hback : Lexicon.Lost _ _ _ := Lexicon.put_self
    (ν := (ν.putPipe p.network.pipes.nextHandle (.lost .front)).pipe) (k := p₁.nextHandle)
      (x := .lost PipeSide.rear)
  have hT₂ := (hT₁.insertPipe_lost .rear
    (p := ⟨w.receiver, w.inPort, w.pattern, p.network.pipes.nextHandle⟩) hinexact
    ⟨⟨key', hreceiver⟩, hfwd₂⟩).modifyPipe_lost hfwd₂
      (u := fun side ↦ { side with reverse := p₁.nextHandle }) fun _ hp ↦ ⟨hp.1, _, hback⟩
  refine TracksAt.of_grows ?_ (hν₁.trans hν₂)
  have hsender := hw.sender.grow (hν₁.trans hν₂).node
  have hreceiver := hreceiver.grow (hν₁.trans hν₂).node
  refine Idle.next (idle_addNext hsender hfwd₂) (fun ν₃ hν₃ ↦ ?_) { p with network := _ } q
    ⟨hT₂, habreast.bare, habreast.reports⟩
  refine (idle_addPrev (hreceiver.grow hν₃.node) (hback.grow hν₃.pipe)).next fun ν₄ hν₄ ↦ ?_
  exact tracks_pure (hfwd₂.grow (hν₃.trans hν₄).pipe)

/-! ### Removing pipes -/

/-- A side of a pipe and its counterpart are removed. -/
theorem follows_removeSide {side side' : Pipe} (hh : ν.pipe.Kept h h')
    (hside : T.Pipes ν side side') : Follows T ν (removeSide h side) (removeSide h' side') := by
  refine (follows_update fun _ _ hT ↦ hT.erasePipe hh).next fun ν' hν ↦ ?_
  have hh := hh.grow hν.pipe
  refine tracks_of_twins fun ⟨_, _, hT⟩ ↦ ?_
  have hne : ∀ g g', ν'.pipe.Kept g g' → decide (g ≠ h) = decide (g' ≠ h') := fun g g' hg ↦
    hT.pipes.injective.decide_ne hg hh
  exact follows_updateNode (hside.node.grow hν.node) (fun _ ↦ ⟨rfl, rfl⟩) fun k k' hk ↦ { hk with
    next := hk.next.filter hne
    prev := hk.prev.filter hne }

/-- A side of a lost pipe is removed. -/
theorem idle_removeSide {side : Pipe} {place : PipeSide} (hh : ν.pipe.Lost place h) :
    Idle T ν (removeSide h side) := by
  refine (idle_update fun _ _ hT ↦ hT.erasePipe_lost hh).next fun ν' hν ↦ ?_
  have hh := hh.grow hν.pipe
  have hne : ∀ g g', ν'.pipe.Kept g g' → decide (g ≠ h) = true := fun g g' hg ↦
    decide_eq_true fun heq ↦ (heq ▸ hg).not_lost hh
  refine idle_updateNode (fun _ ↦ rfl) (fun k k' _ hk ↦ { hk with
    next := hk.next.filter_left hne
    prev := hk.prev.filter_left hne }) fun k _ hk ↦ { hk with
      next := fun g hg ↦ hk.next g (List.mem_of_mem_filter hg)
      prev := by rw [hk.prev]; rfl }

/-- **A pipe and its counterpart are removed.** -/
theorem follows_removePipe (hh : ν.pipe.Kept h h') :
    Follows T ν (removePipe h) (removePipe h') := by
  refine tracks_pipe?_bind hh fun o o' ho ↦ ?_
  cases ho with
  | none => exact follows_pure
  | @some side side' hside =>
    refine (follows_removeSide hh hside).next fun ν' hν ↦ ?_
    have hreverse := hside.reverse.grow hν.pipe
    refine tracks_pipe?_bind hreverse fun o o' ho ↦ ?_
    cases ho with
    | none => exact follows_pure
    | some hother => exact follows_removeSide hreverse hother

/-- **A lost pipe is removed.** -/
theorem idle_removePipe {place : PipeSide} (hh : ν.pipe.Lost place h) :
    Idle T ν (removePipe h) := by
  refine tracks_pipe?_left fun o ho ↦ ?_
  split
  · rename_i side
    have hreverse : ∃ place, ν.pipe.Lost place side.reverse := by
      have hside := ho side place rfl hh
      cases place with
      | front => exact hside.2
      | rear => exact ⟨_, hside.2⟩
    obtain ⟨place', hreverse⟩ := hreverse
    refine (idle_removeSide hh).next fun ν' hν ↦ tracks_pipe?_left fun o _ ↦ ?_
    split
    · exact idle_removeSide (hreverse.grow hν.pipe)
    · exact follows_pure
  · exact follows_pure

/-! ### Nodes -/

/-- **A node and its counterpart are connected.** -/
theorem follows_connect (hkey : ν.node.Kept key key') :
    Follows T ν (connect key) (connect key') := by
  refine tracks_node_bind hkey fun k k' hk ↦ ?_
  refine tracks_ask_bind (fun net net' hT ↦ hk.wiresOf hT) fun ws ws' hws ↦ ?_
  exact follows_forM hws (fun ν' w w' hν hw ↦ (tracks_addPipe (hw.grow hν)).discard)
    fun ν' w hν hw ↦ (idle_addPipe (hw.grow hν)).discard_left

/-- A lost source is connected. -/
theorem idle_connect (hkey : ν.node.Lost () key) : Idle T ν (connect key) := by
  refine tracks_node_left fun net net' k hT hnode ↦ ?_
  have hk := hT.node_lost hkey hnode
  refine tracks_ask_left fun net net' ws hT hws ↦ ?_
  exact idle_forM fun w hw ν' hν ↦ (idle_addPipe ((hk.wiresOf hT hws w hw).grow hν)).discard_left

/-- **A node and its counterpart are disconnected**, with the pipes from lost sources. -/
theorem follows_disconnect (hkey : ν.node.Kept key key') :
    Follows T ν (disconnect key) (disconnect key') := by
  refine tracks_node_bind hkey fun k k' hk ↦ ?_
  refine follows_forM ((hk.next.imp (fun _ _ hg ↦ hg) fun _ hno ↦ hno.elim).append hk.prev)
    (fun ν' g g' hν hg ↦ follows_removePipe (hg.grow hν.pipe)) fun ν' g hν hg ↦ ?_
  exact idle_removePipe (hg.grow hν.pipe)

/-- A lost source is disconnected. -/
theorem idle_disconnect (hkey : ν.node.Lost () key) : Idle T ν (disconnect key) := by
  refine tracks_node_left fun net net' k hT hnode ↦ ?_
  have hk := hT.node_lost hkey hnode
  refine idle_forM fun g hg ν' hν ↦ ?_
  rw [hk.prev, List.append_nil] at hg
  exact idle_removePipe ((hk.next g hg).grow hν.pipe)

/-! ### Links -/

/-- Two nodes are joined along a link, and so are their counterparts. -/
theorem follows_joinAlong (l : Link) (hsender : ν.node.Kept key key') {r r' : NodeKey}
    (hreceiver : ν.node.Kept r r') : Follows T ν (joinAlong l key r) (joinAlong l key' r') := by
  refine tracks_node_bind hsender fun s s' hs ↦ tracks_node_bind hreceiver fun r r' hr ↦ ?_
  refine tracks_check_bind (hr.overlap hs.sends) fun o o' ho ↦ ?_
  cases ho with
  | none => exact follows_pure
  | some hp =>
    refine Tracks.bind (tracks_addPipe ⟨hsender, rfl, hreceiver, rfl, hp⟩)
      fun ν₁ fwd fwd' hν₁ hfwd ↦ ?_
    exact follows_sendFlows (hsender.grow hν₁.node) hfwd

/-- A pipe from a lost source is built along a link. -/
theorem idle_joinAlong (l : Link) (hsender : ν.node.Lost () key) {r r' : NodeKey}
    (hreceiver : ν.node.Kept r r') : Idle T ν (joinAlong l key r) := by
  refine tracks_node_left fun _ _ _ _ _ ↦
    tracks_node_left fun _ _ _ _ _ ↦ tracks_check_left fun o _ ↦ ?_
  split
  · exact (idle_addPipe ⟨hsender, r', hreceiver⟩).bind_left fun ν₁ fwd hν₁ _ ↦
      idle_sendFlows (hsender.grow hν₁.node)
  · exact follows_pure

/-- **The pipes of a new link are built, and flows are sent down each.** -/
theorem follows_connectLink (l : Link) : Follows T ν (connectLink l) (connectLink l) := by
  refine tracks_network_bind fun net net' hT ↦ ?_
  refine follows_forM (hT.directory.exits l.source) (fun ν₁ s s' hν₁ hs ↦ ?_) fun ν₁ s hν₁ hs ↦ ?_
  · refine follows_forM_all (hT.directory.entrances l.target) fun ν₂ r r' hν₂ hr ↦ ?_
    exact follows_joinAlong l (hs.grow (hν₁.trans hν₂).node) (hr.grow (hν₁.trans hν₂).node)
  · refine idle_forM fun r hr ν₂ hν₂ ↦ ?_
    obtain ⟨r', hreceiver⟩ := hT.kept_of_entrance hr
    exact idle_joinAlong l (hs.grow (hν₁.trans hν₂).node) (hreceiver.grow (hν₁.trans hν₂).node)

/-- The flows that came by a pipe are removed. -/
theorem follows_removeCame (hkey : ν.node.Kept key key') (hfwd : ν.pipe.Kept fwd fwd') :
    Follows T ν
      (do (← node key).flows.forM fun h ↦ do
        if ((← flow? h).any fun f ↦ f.pipe == some fwd) then removeFlow h)
      (do (← node key').flows.forM fun h ↦ do
        if ((← flow? h).any fun f ↦ f.pipe == some fwd') then removeFlow h) := by
  refine tracks_of_twins fun ⟨_, _, hT⟩ ↦ tracks_node_bind hkey fun k k' hk ↦ ?_
  refine follows_forM hk.flows (fun ν₁ h h' hν₁ hh ↦ ?_) fun ν₁ h hν₁ hh ↦ ?_
  · refine tracks_of_twins fun ⟨_, _, hT⟩ ↦ tracks_flow?_bind (hh.grow hν₁.flow) fun o o' ho ↦ ?_
    have hcame : ∀ f f', T.Flows ν₁ f f' → (f'.pipe == some fwd') = (f.pipe == some fwd) := by
      intro f f' hff
      have hpipe := hff.pipe
      generalize f.pipe = w at hpipe
      generalize f'.pipe = w' at hpipe
      cases hpipe with
      | none => rfl
      | some hw => exact (hT.pipes.injective.beq_eq hw (hfwd.grow hν₁.pipe)).symm
    rw [any_eq (u := fun f ↦ f.pipe == some fwd) ho hcame]
    split
    · exact follows_removeFlow (hh.grow hν₁.flow)
    · exact follows_pure
  · refine tracks_flow?_left (hh.grow hν₁.flow) fun o _ ↦ ?_
    split
    · exact idle_removeFlow (hh.grow hν₁.flow)
    · exact follows_pure

/-- Only lost flows came by a lost pipe. -/
theorem idle_removeCame {place : PipeSide} (key : NodeKey) (hfwd : ν.pipe.Lost place fwd) :
    Idle T ν (do (← node key).flows.forM fun h ↦ do
      if ((← flow? h).any fun f ↦ f.pipe == some fwd) then removeFlow h) := by
  refine tracks_node_left fun net net' k hT hnode ↦ idle_forM fun h hh ν₁ hν₁ ↦ ?_
  have hnamed : (∃ h', ν.flow.Kept h h') ∨ ν.flow.Lost () h := by
    obtain ⟨-, ⟨k', hk⟩ | hlost⟩ := hT.node_cases hnode
    · exact (hk.flows.of_mem hh).imp_left fun ⟨h', _, hh⟩ ↦ ⟨h', hh⟩
    · exact .inr (hlost.flows h hh)
  rcases hnamed with ⟨h', hh⟩ | hh
  · intro p q habreast
    have hno : (p.network.flows.find? h).any (fun f ↦ f.pipe == some fwd) = false := by
      cases hf : p.network.flows.find? h with
      | none => rfl
      | some f =>
        obtain ⟨f', -, hff⟩ := habreast.twins.flows.of_live (hh.grow hν₁.flow) hf
        refine beq_false_of_ne fun hpipe ↦ ?_
        obtain ⟨w', -, hw⟩ := of_optionRel_some (hpipe ▸ hff.pipe)
        exact hw.not_lost (hfwd.grow hν₁.pipe)
    have hskip :
        (do if ((← flow? h).any fun f ↦ f.pipe == some fwd) then removeFlow h : Engine Unit) p =
        (if ((p.network.flows.find? h).any fun f ↦ f.pipe == some fwd) then removeFlow h
          else pure ()) p :=
      rfl
    rw [TracksAt, hskip, hno]
    exact follows_pure p q habreast
  · refine tracks_flow?_left (hh.grow hν₁.flow) fun o _ ↦ ?_
    split
    · exact idle_removeFlow (hh.grow hν₁.flow)
    · exact follows_pure

/-- A pipe that runs along the link is cut in both networks. -/
theorem follows_cutPipe (l : Link) (hfwd : ν.pipe.Kept fwd fwd') :
    Follows T ν (cutPipe l fwd) (cutPipe l fwd') := by
  refine tracks_pipe_bind hfwd fun side side' hside ↦ ?_
  rw [hside.port]
  split
  · exact follows_pure
  refine tracks_pipe_bind hside.reverse fun back back' hback ↦ ?_
  rw [hback.port]
  split
  · exact follows_pure
  have hboth := (follows_removeCame hback.node hfwd).next (l := fun _ ↦ removePipe fwd')
    (k := fun _ ↦ removePipe fwd) fun ν' hν ↦ follows_removePipe (T := T) (hfwd.grow hν.pipe)
  simpa only [bind_assoc] using hboth

/-- A lost pipe is cut. -/
theorem idle_cutPipe (l : Link) (hfwd : ν.pipe.Lost .front fwd) : Idle T ν (cutPipe l fwd) := by
  refine tracks_pipe_left fun side _ _ ↦ ?_
  split
  · exact follows_pure
  refine tracks_pipe_left fun back _ _ ↦ ?_
  split
  · exact follows_pure
  have hboth := (idle_removeCame back.node hfwd).next (k := fun _ ↦ removePipe fwd) fun ν' hν ↦
    idle_removePipe (T := T) (hfwd.grow hν.pipe)
  simpa only [bind_assoc] using hboth

/-- **The pipes along a link are removed, with the flows that came by them.** -/
theorem follows_disconnectLink (l : Link) : Follows T ν (disconnectLink l) (disconnectLink l) := by
  refine tracks_network_bind fun net net' hT ↦ ?_
  refine follows_forM (hT.directory.exits l.source) (fun ν₁ s s' hν₁ hs ↦ ?_) fun ν₁ s hν₁ hs ↦ ?_
  · exact tracks_node_bind (hs.grow hν₁.node) fun k k' hk ↦
      follows_forM_all hk.next fun ν₂ g g' hν₂ hg ↦ follows_cutPipe l (hg.grow hν₂.pipe)
  · refine tracks_node_left fun net net' k hT hnode ↦ idle_forM fun g hg ν₂ hν₂ ↦ ?_
    exact idle_cutPipe l (((hT.node_lost (hs.grow hν₁.node) hnode).next g hg).grow hν₂.pipe)

end Engine

end HeaderFlow
