import HeaderFlow.Proofs.Network.Twins

/-!
# Steps of twin networks

What is looked up in a network has its counterpart in its twin, and each elementary change of a
network is matched by the same change of the counterpart, or by none if it only concerns what is
lost. **Storing something is the only kind of step that adds names.**

The lemmas here are about networks and know nothing of computations; `Tracks` turns them into rules.
For each kind of thing (flows, pipes, influences, nodes) there are those that change it, store it
and take it out, once for a thing and its counterpart and once, with `_lost` in the name, for a
thing that has none.

## What has to be shown for a step

* *Changing* a thing keeps its name. It is enough that the thing and its counterpart still say the
  same, or that what was lost still is.
* *Storing* gives a handle that no name was given to, because names are given to handles that were
  given out. So the new name does not change what the others stand for, and the naming stays
  injective (`grows_putFlow`, `grows_putPipe`, `grows_putNode`). What was said under the old naming
  is said under the new one by the lemmas called `grow`.
* *Taking out* leaves all names as they are. A handle that is taken out is never given out again, so
  its name does no harm.

Two facts are not about counterparts and are carried along: flows can be ranked, so that going up
comes to an end in both networks with as many steps as there are flows (`Ranked`), and keys of nodes
differ.

For nodes there is also the registry. That tables, ports and identifiers lead to counterparts after
the step is shown in `TwinRegistry`, from the keys alone.
-/

namespace HeaderFlow

variable {n m : Nat} {T : Comparison n m} {ν ν' : Naming} {net net' : Network} {key key' : NodeKey}
  {h h' : Handle} {k k' : Node}

/-- A node is looked up with success if it is there. -/
theorem Engine.node_eq_ok : net.node key = .ok k ↔ net.nodeAt? key = some k := by
  rw [Network.node]
  cases net.nodeAt? key <;> simp

/-! ### Ranks -/

section Ranks

variable {rank : Handle → Nat} {F : Arena Flow}

/-- Changing a flow keeps the ranks if its parent stays and new children rank below it. -/
theorem Ranked.modify {u : Flow → Flow} (hR : Ranked rank F)
    (hu : ∀ f, F.find? h = some f → (u f).parent = f.parent ∧
      ∀ c ∈ (u f).children, c ∈ f.children ∨ rank h < rank c) : Ranked rank (F.modify h u) := by
  intro g f hf
  rw [Arena.find?_modify] at hf
  split at hf
  · subst g
    obtain ⟨f', hf', rfl⟩ := Option.map_eq_some_iff.1 hf
    obtain ⟨hparent, hchildren⟩ := hu f' hf'
    obtain ⟨habove, hbelow⟩ := hR h f' hf'
    exact ⟨fun p hp ↦ habove p (hparent ▸ hp), fun c hc ↦ (hchildren c hc).elim (hbelow c) id⟩
  · exact hR g f hf

/-- Taking out a flow keeps the ranks. -/
theorem Ranked.erase (hR : Ranked rank F) : Ranked rank (F.erase h) := fun g f hf ↦
  hR g f ((Arena.lacks_erase g f).1 hf).2

/-- A flow without children goes below the one that it came from. -/
theorem Ranked.insert {f : Flow} (hR : Ranked rank F) (hF : F.Valid) (hchildren : f.children = [])
    (hparent : ∀ p, f.parent = some p → p ≠ F.nextHandle)
    (hkin : ∀ h g, F.find? h = some g →
      (∀ p, g.parent = some p → p ≠ F.nextHandle) ∧ ∀ c ∈ g.children, c ≠ F.nextHandle) :
    ∃ rank', Ranked rank' (F.insert f) := by
  refine ⟨Function.update rank F.nextHandle (f.parent.elim 0 rank + 1), fun g l hl ↦ ?_⟩
  rcases Arena.of_find?_insert hF hl with ⟨rfl, rfl⟩ | ⟨hne, hl⟩
  · refine ⟨fun p hp ↦ ?_, by simp [hchildren]⟩
    rw [Function.update_of_ne (hparent p hp), Function.update_self, hp]
    exact Nat.lt_succ_self _
  · obtain ⟨hp', hc'⟩ := hkin g l hl
    obtain ⟨habove, hbelow⟩ := hR g l hl
    refine ⟨fun p hp ↦ ?_, fun c hc ↦ ?_⟩
    · rw [Function.update_of_ne (hp' p hp), Function.update_of_ne hne]
      exact habove p hp
    · rw [Function.update_of_ne hne, Function.update_of_ne (hc' c hc)]
      exact hbelow c hc

end Ranks

/-- The names after a flow was stored. -/
abbrev Naming.putFlow (ν : Naming) (h : Handle) (x : Fate Handle Unit) : Naming :=
  { ν with flow := ν.flow.put h x }

/-- The names after a side of a pipe was stored. -/
abbrev Naming.putPipe (ν : Naming) (h : Handle) (x : Fate Handle PipeSide) : Naming :=
  { ν with pipe := ν.pipe.put h x }

/-- The names after a node was added. -/
abbrev Naming.putNode (ν : Naming) (key : NodeKey) (x : Fate NodeKey Unit) : Naming :=
  { ν with node := ν.node.put key x }

namespace Comparison.Twins

/-! ### Looking up -/

/-- If a flow is lost, the runs are not the same. -/
theorem inexact (hT : T.Twins ν net net') (hh : ν.flow.Lost () h) : ¬ T.exact := hT.flows.inexact hh

/-- If a source is lost, the runs are not the same. -/
theorem inexact_of_node (hT : T.Twins ν net net')
    (hk : ν.node.Lost () key) : ¬ T.exact := fun he ↦ by
  cases (hT.sameKeys he).2 _ _ hk

/-- A key leads to a node if and only if its counterpart does. -/
theorem nodeAt? (hT : T.Twins ν net net') (hkey : ν.node.Kept key key') :
    Option.Rel (T.Nodes ν) (net.nodeAt? key) (net'.nodeAt? key') := by
  refine hT.nodes.find? (fun k k' hk ↦ hT.injective.beq_eq hk.key hkey) fun k hk ↦ ?_
  refine beq_false_of_ne ?_
  rintro rfl
  exact hkey.not_lost hk.key

/-- A node and its counterpart. -/
theorem node (hT : T.Twins ν net net') (hkey : ν.node.Kept key key')
    (hk : net.nodeAt? key = some k) : ∃ k', net'.nodeAt? key' = some k' ∧ T.Nodes ν k k' :=
  of_optionRel_some (hk ▸ hT.nodeAt? hkey)

/-- If looking up a node succeeds, so does looking up its counterpart. -/
theorem tracks_node (hT : T.Twins ν net net') (hkey : ν.node.Kept key key') :
    Checked.Tracks (net.node key) (net'.node key') (T.Nodes ν) := by
  have hrel := hT.nodeAt? hkey
  rw [Network.node, Network.node]
  generalize net.nodeAt? key = o at hrel
  generalize net'.nodeAt? key' = o' at hrel
  cases hrel with
  | some h => exact Checked.tracks_ok h
  | none => rintro a ⟨⟩

/-- A node is there in the twin, or it is lost. -/
theorem node_cases (hT : T.Twins ν net net') (hk : net.nodeAt? key = some k) :
    k.key = key ∧ ((∃ k', T.Nodes ν k k') ∨ T.LostNode ν k) := by
  refine ⟨by simpa using List.find?_some hk, ?_⟩
  exact (hT.nodes.of_mem (List.mem_of_find?_eq_some hk)).imp_left fun ⟨k', _, h⟩ ↦ ⟨k', h⟩

/-- What is found under a lost key is a lost source. -/
theorem node_lost (hT : T.Twins ν net net') (hkey : ν.node.Lost () key)
    (hk : net.nodeAt? key = some k) : T.LostNode ν k := by
  obtain ⟨rfl, ⟨k', hkk⟩ | hlost⟩ := hT.node_cases hk
  · exact absurd hkey hkk.key.not_lost
  · exact hlost

/-- What is near a live flow has a name. -/
theorem named_kin {f : Flow} (hT : T.Twins ν net net') (hf : net.flows.find? h = some f) :
    (∀ p, f.parent = some p → ∃ x, ν.flow p = some x) ∧
    ∀ c ∈ f.children, ∃ x, ν.flow c = some x := by
  obtain ⟨x, hx⟩ := hT.flows.named h f hf
  cases x with
  | kept h' =>
    obtain ⟨f', -, hff⟩ := hT.flows.of_live hx hf
    refine ⟨fun p hp ↦ ?_, fun c hc ↦ ?_⟩
    · obtain ⟨p', -, hh⟩ := of_optionRel_some (hp ▸ hff.parent)
      exact ⟨_, hh⟩
    · obtain ⟨_, -, hh⟩ | hno := hff.children.of_mem hc
      · exact ⟨_, hh⟩
      · exact hno.elim
  | lost d =>
    have hlost := hT.flows.lost h d hx f hf
    exact ⟨fun p hp ↦ ⟨_, hlost.parent p hp⟩, fun c hc ↦ ⟨_, hlost.children c hc⟩⟩

/-- The flows of the twin have ranks as well. -/
theorem ranked' (hT : T.Twins ν net net') : ∃ rank, Ranked rank net'.flows := by
  obtain ⟨rank, hR⟩ := hT.ranked
  classical
  let rank' : Handle → Nat := fun h' ↦ if hh : ∃ h, ν.flow.Kept h h' then rank hh.choose else 0
  have hrank : ∀ h h', ν.flow.Kept h h' → rank' h' = rank h := by
    intro h h' hh
    have hex : ∃ h, ν.flow.Kept h h' := ⟨h, hh⟩
    simp only [rank', dif_pos hex]
    rw [hT.flows.injective _ _ _ hex.choose_spec hh]
  refine ⟨rank', fun h' f' hf' ↦ ?_⟩
  obtain ⟨h, f, hh, hf, hff⟩ := hT.flows.of_live_right hf'
  obtain ⟨habove, hbelow⟩ := hR h f hf
  rw [hrank h h' hh]
  refine ⟨fun p' hp' ↦ ?_, fun c' hc' ↦ ?_⟩
  · obtain ⟨p, hp, hpp⟩ := of_optionRel_some_right (hp' ▸ hff.parent)
    exact hrank _ _ hpp ▸ habove p hp
  · obtain ⟨c, hc, hcc⟩ := hff.children.of_mem_right hc'
    exact hrank _ _ hcc ▸ hbelow c hc

/-! ### Nodes -/

/-- The keys of nodes are part of their names. -/
theorem map_key_eq (ns : List Node) : ns.map Node.key = (ns.map Node.name).map Prod.fst := by
  rw [List.map_map]
  rfl

/-- Changing a node that keeps its name does not change the names. -/
theorem map_name_update {u : Node → Node} (hname : ∀ k, (u k).name = k.name) (ns : List Node) :
    (ns.map fun k ↦ if k.key == key then u k else k).map Node.name = ns.map Node.name := by
  rw [List.map_map]
  refine List.map_congr_left fun k _ ↦ ?_
  rw [Function.comp_apply]
  split
  · exact hname k
  · rfl

/-- Every node has a name in the twin, or is lost. -/
theorem known (hT : T.Twins ν net net') (hk : k ∈ net.nodes) : ∃ x, ν.node k.key = some x := by
  obtain ⟨k', -, hkk⟩ | hlost := hT.nodes.of_mem hk
  · exact ⟨_, hkk.key⟩
  · exact ⟨_, hlost.key⟩

/-- The nodes of the twin have different keys as well. -/
theorem nodup' (hT : T.Twins ν net net') : (net'.nodes.map Node.key).Nodup := by
  have hnodup := hT.nodup
  have hnodes := hT.nodes
  generalize net.nodes = ns, net'.nodes = ns' at hnodup hnodes
  induction hnodes with
  | nil => exact .nil
  | @keep k k' ns ns' hkk hrest ih =>
    obtain ⟨hk, hns⟩ := List.nodup_cons.1 hnodup
    refine List.nodup_cons.2 ⟨fun hmem ↦ hk ?_, ih hns⟩
    obtain ⟨l', hl', hkey⟩ := List.mem_map.1 hmem
    obtain ⟨l, hl, hll⟩ := hrest.of_mem_right hl'
    rw [hT.injective k.key l.key k'.key hkk.key (hkey ▸ hll.key)]
    exact List.mem_map_of_mem hl
  | skip _ _ ih => exact ih (List.nodup_cons.1 hnodup).2

/-- Nodes whose keys go with each other are counterparts. -/
theorem nodes_of_kept (hT : T.Twins ν net net') (hk : k ∈ net.nodes) (hk' : k' ∈ net'.nodes)
    (hkey : ν.node.Kept k.key k'.key) : T.Nodes ν k k' := by
  obtain ⟨l, hl, hlk⟩ := hT.nodes.of_mem_right hk'
  have hsame := hT.injective _ _ _ hlk.key hkey
  rwa [← List.inj_on_of_nodup_map hT.nodup hl hk hsame]

/-- A node and its counterpart are called as no other nodes are, if nothing is mixed up. -/
theorem discerned (hT : T.Twins ν net net') (hd : T.Discerns) (hkk : T.Nodes ν' k k') :
    Directory.Discerned ν.node (net.nodes.map Node.name) (net'.nodes.map Node.name) k.id k'.id := by
  intro x hx x' hx' hkey hid
  obtain ⟨l, hl, rfl⟩ := List.mem_map.1 hx
  obtain ⟨l', hl', rfl⟩ := List.mem_map.1 hx'
  have hll := (hT.nodes_of_kept hl hl' hkey).called
  have hid : l'.id = k'.id := hid
  rw [hid] at hll
  exact hd _ _ _ _ _ _ _ hll hkk.called

/-- **A node and its counterpart are changed.** -/
theorem updateNode {u v : Node → Node} (hT : T.Twins ν net net') (hkey : ν.node.Kept key key')
    (hname : ∀ k, (u k).name = k.name ∧ (v k).name = k.name)
    (hu : ∀ k k', k ∈ net.nodes → k.key = key → T.Nodes ν k k' → T.Nodes ν (u k) (v k')) :
    T.Twins ν
      { net with nodes := net.nodes.map fun k ↦ if k.key == key then u k else k }
      { net' with nodes := net'.nodes.map fun k ↦ if k.key == key' then v k else k } :=
  { hT with
    nodup := by
      rw [map_key_eq, map_name_update fun k ↦ (hname k).1, ← map_key_eq]
      exact hT.nodup
    unrenamed := by
      rw [map_name_update fun k ↦ (hname k).1, map_name_update fun k ↦ (hname k).2]
      exact hT.unrenamed
    ids := by
      rw [map_name_update fun k ↦ (hname k).1]
      exact hT.ids
    ids' := by
      rw [map_name_update fun k ↦ (hname k).2]
      exact hT.ids'
    reaches := by
      rw [map_name_update fun k ↦ (hname k).1, map_name_update fun k ↦ (hname k).2]
      exact hT.reaches
    nodes := by
      have hmem : Culled (fun k k' ↦ k ∈ net.nodes ∧ T.Nodes ν k k')
          (T.LostNode ν) net.nodes net'.nodes :=
        hT.nodes.imp_mem (fun k hk _ _ h ↦ ⟨hk, h⟩) fun _ _ h ↦ h
      refine hmem.map (fun k k' hk ↦ ?_) fun k hk ↦ ?_
      · rw [← hT.injective.beq_eq hk.2.key hkey]
        split
        · exact hu k k' hk.1 (beq_iff_eq.1 ‹_›) hk.2
        · exact hk.2
      · rw [beq_false_of_ne, if_neg (by simp)]
        · exact hk
        · rintro rfl
          exact hkey.not_lost hk.key }

/-- **What a node has of lost things is changed.** -/
theorem updateNode_lost {u : Node → Node} (hT : T.Twins ν net net')
    (hname : ∀ k, (u k).name = k.name)
    (hu : ∀ k k', k ∈ net.nodes → k.key = key → T.Nodes ν k k' → T.Nodes ν (u k) k')
    (hlost : ∀ k, k.key = key → T.LostNode ν k → T.LostNode ν (u k)) :
    T.Twins ν { net with nodes := net.nodes.map fun k ↦ if k.key == key then u k else k } net' :=
  { hT with
    nodup := by
      rw [map_key_eq, map_name_update hname, ← map_key_eq]
      exact hT.nodup
    unrenamed := by
      rw [map_name_update hname]
      exact hT.unrenamed
    ids := by
      rw [map_name_update hname]
      exact hT.ids
    reaches := by
      rw [map_name_update hname]
      exact hT.reaches
    nodes := by
      have hmem : Culled (fun k k' ↦ k ∈ net.nodes ∧ T.Nodes ν k k')
          (T.LostNode ν) net.nodes net'.nodes :=
        hT.nodes.imp_mem (fun k hk _ _ h ↦ ⟨hk, h⟩) fun _ _ h ↦ h
      refine hmem.map_left (fun k k' hk ↦ ?_) fun k hk ↦ ?_
      · split
        · exact hu k k' hk.1 (beq_iff_eq.1 ‹_›) hk.2
        · exact hk.2
      · split
        · exact hlost k (beq_iff_eq.1 ‹_›) hk
        · exact hk }

/-! ### Flows -/

/-- **A flow and its counterpart are changed.** -/
theorem updateFlow {u v : Flow → Flow} (hT : T.Twins ν net net') (hh : ν.flow.Kept h h')
    (hu : ∀ f f', T.Flows ν f f' → T.Flows ν (u f) (v f'))
    (hrank : ∀ rank, Ranked rank net.flows → Ranked rank (net.flows.modify h u)) :
    T.Twins ν { net with flows := net.flows.modify h u }
      { net' with flows := net'.flows.modify h' v } :=
  { hT with
    flows := hT.flows.modify hh fun f f' _ _ ↦ hu f f'
    ranked := hT.ranked.imp hrank }

/-- **A lost flow is changed.** -/
theorem updateFlow_lost {u : Flow → Flow} (hT : T.Twins ν net net') (hh : ν.flow.Lost () h)
    (hu : ∀ f, LostFlow ν f → LostFlow ν (u f))
    (hrank : ∀ rank, Ranked rank net.flows → Ranked rank (net.flows.modify h u)) :
    T.Twins ν { net with flows := net.flows.modify h u } net' :=
  { hT with
    flows := hT.flows.modify_lost hh hu
    ranked := hT.ranked.imp hrank }

/-- A flow and its counterpart are taken out. -/
theorem eraseFlow (hT : T.Twins ν net net') (hh : ν.flow.Kept h h') :
    T.Twins ν { net with flows := net.flows.erase h } { net' with flows := net'.flows.erase h' } :=
  { hT with
    flows := hT.flows.erase hh
    ranked := hT.ranked.imp fun _ hR ↦ hR.erase }

/-- A lost flow is taken out. -/
theorem eraseFlow_lost (hT : T.Twins ν net net') (hh : ν.flow.Lost () h) :
    T.Twins ν { net with flows := net.flows.erase h } net' :=
  { hT with
    flows := hT.flows.erase_lost hh
    ranked := hT.ranked.imp fun _ hR ↦ hR.erase }

/-- A new flow does not spoil the ranks. -/
theorem ranked_insert {f : Flow} (hT : T.Twins ν net net') (hchildren : f.children = [])
    (hparent : ∀ p, f.parent = some p → ∃ x, ν.flow p = some x) :
    ∃ rank, Ranked rank (net.flows.insert f) := by
  have hne : ∀ p, (∃ x, ν.flow p = some x) → p ≠ net.flows.nextHandle := by
    rintro p ⟨x, hx⟩ rfl
    cases hT.flows.new_none.symm.trans hx
  obtain ⟨rank, hR⟩ := hT.ranked
  refine hR.insert hT.flows.valid hchildren (fun p hp ↦ hne p (hparent p hp)) fun h g hg ↦ ?_
  obtain ⟨habove, hbelow⟩ := hT.named_kin hg
  exact ⟨fun p hp ↦ hne p (habove p hp), fun c hc ↦ hne c (hbelow c hc)⟩

/-- The handle of a flow that is stored has no name yet. -/
theorem grows_putFlow (hT : T.Twins ν net net') (x : Fate Handle Unit) :
    ν.Grows (ν.putFlow net.flows.nextHandle x) :=
  ⟨.refl _, .refl _, Lexicon.grows_put hT.flows.new_none⟩

/-- All but flows stand for each other under more names of flows. -/
theorem withFlows {F F' : Arena Flow} (hT : T.Twins ν net net') {x : Fate Handle Unit}
    (hflows : Arena.Pairs T.exact (ν.putFlow net.flows.nextHandle x).flow
      (T.Flows (ν.putFlow net.flows.nextHandle x))
      (fun _ ↦ LostFlow (ν.putFlow net.flows.nextHandle x)) F F')
    (hranked : ∃ rank, Ranked rank F) :
    T.Twins (ν.putFlow net.flows.nextHandle x) { net with flows := F } { net' with flows := F' } :=
  have hν := hT.grows_putFlow x
  { hT with
    nodes := hT.nodes.imp (fun _ _ hk ↦ hk.grow hν) fun _ hk ↦ hk.grow hν
    pipes := hT.pipes.imp (fun _ _ hp ↦ hp.grow hν) fun _ _ hp ↦ lostPipe_grow hp hν
    influences := hT.influences.imp fun _ _ hi ↦ hi.grow hν
    flows := hflows
    ranked := hranked }

/-- **A flow and its counterpart are stored.** -/
theorem insertFlow {f f' : Flow} (hT : T.Twins ν net net')
    (hff : T.Flows (ν.putFlow net.flows.nextHandle (.kept net'.flows.nextHandle)) f f')
    (hchildren : f.children = []) (hparent : ∀ p, f.parent = some p → ∃ x, ν.flow p = some x) :
    T.Twins (ν.putFlow net.flows.nextHandle (.kept net'.flows.nextHandle))
      { net with flows := net.flows.insert f } { net' with flows := net'.flows.insert f' } :=
  have hν := hT.grows_putFlow (.kept net'.flows.nextHandle)
  hT.withFlows (hT.flows.insert (fun _ _ hf ↦ hf.grow hν) (fun _ _ hf ↦ hf.grow hν) hff)
    (hT.ranked_insert hchildren hparent)

/-- **A lost flow is stored.** -/
theorem insertFlow_lost {f : Flow} (hT : T.Twins ν net net') (hinexact : ¬ T.exact)
    (hf : LostFlow (ν.putFlow net.flows.nextHandle (.lost ())) f)
    (hchildren : f.children = []) (hparent : ∀ p, f.parent = some p → ∃ x, ν.flow p = some x) :
    T.Twins (ν.putFlow net.flows.nextHandle (.lost ()))
      { net with flows := net.flows.insert f } net' :=
  have hν := hT.grows_putFlow (.lost ())
  hT.withFlows
    (hT.flows.insert_lost hinexact (fun _ _ hf ↦ hf.grow hν) (fun _ _ hf ↦ hf.grow hν) hf)
    (hT.ranked_insert hchildren hparent)

/-! ### Pipes -/

/-- The handle of a pipe that is stored has no name yet. -/
theorem grows_putPipe (hT : T.Twins ν net net') (x : Fate Handle PipeSide) :
    ν.Grows (ν.putPipe net.pipes.nextHandle x) :=
  ⟨.refl _, Lexicon.grows_put hT.pipes.new_none, .refl _⟩

/-- All but pipes stand for each other under more names of pipes. -/
theorem withPipes {P P' : Arena Pipe} (hT : T.Twins ν net net') {x : Fate Handle PipeSide}
    (hpipes : Arena.Pairs T.exact (ν.putPipe net.pipes.nextHandle x).pipe
      (T.Pipes (ν.putPipe net.pipes.nextHandle x))
      (LostPipe (ν.putPipe net.pipes.nextHandle x)) P P') :
    T.Twins (ν.putPipe net.pipes.nextHandle x) { net with pipes := P } { net' with pipes := P' } :=
  have hν := hT.grows_putPipe x
  { hT with
    nodes := hT.nodes.imp (fun _ _ hk ↦ hk.grow hν) fun _ hk ↦ hk.grow hν
    pipes := hpipes
    influences := hT.influences.imp fun _ _ hi ↦ hi.grow hν
    flows := hT.flows.imp (fun _ _ hf ↦ hf.grow hν) fun _ _ hf ↦ hf.grow hν }

/-- **A side of a pipe and its counterpart are stored.** -/
theorem insertPipe {p q : Pipe} (hT : T.Twins ν net net')
    (hpp : T.Pipes (ν.putPipe net.pipes.nextHandle (.kept net'.pipes.nextHandle)) p q) :
    T.Twins (ν.putPipe net.pipes.nextHandle (.kept net'.pipes.nextHandle))
      { net with pipes := net.pipes.insert p } { net' with pipes := net'.pipes.insert q } :=
  have hν := hT.grows_putPipe (.kept net'.pipes.nextHandle)
  hT.withPipes (hT.pipes.insert (fun _ _ hp ↦ hp.grow hν) (fun _ _ hp ↦ lostPipe_grow hp hν) hpp)

/-- **A side of a lost pipe is stored.** -/
theorem insertPipe_lost {p : Pipe} (side : PipeSide) (hT : T.Twins ν net net')
    (hinexact : ¬ T.exact) (hp : LostPipe (ν.putPipe net.pipes.nextHandle (.lost side)) side p) :
    T.Twins (ν.putPipe net.pipes.nextHandle (.lost side))
      { net with pipes := net.pipes.insert p } net' :=
  have hν := hT.grows_putPipe (.lost side)
  hT.withPipes (hT.pipes.insert_lost hinexact (fun _ _ hp ↦ hp.grow hν)
    (fun _ _ hp ↦ lostPipe_grow hp hν) hp)

/-- A side of a pipe and its counterpart are changed. -/
theorem modifyPipe {u v : Pipe → Pipe} (hT : T.Twins ν net net') (hh : ν.pipe.Kept h h')
    (hu : ∀ p p', T.Pipes ν p p' → T.Pipes ν (u p) (v p')) :
    T.Twins ν { net with pipes := net.pipes.modify h u }
      { net' with pipes := net'.pipes.modify h' v } :=
  { hT with pipes := hT.pipes.modify hh fun p p' _ _ ↦ hu p p' }

/-- A side of a lost pipe is changed. -/
theorem modifyPipe_lost {u : Pipe → Pipe} {side : PipeSide} (hT : T.Twins ν net net')
    (hh : ν.pipe.Lost side h) (hu : ∀ p, LostPipe ν side p → LostPipe ν side (u p)) :
    T.Twins ν { net with pipes := net.pipes.modify h u } net' :=
  { hT with pipes := hT.pipes.modify_lost hh hu }

/-- A side of a pipe and its counterpart are taken out. -/
theorem erasePipe (hT : T.Twins ν net net') (hh : ν.pipe.Kept h h') :
    T.Twins ν { net with pipes := net.pipes.erase h } { net' with pipes := net'.pipes.erase h' } :=
  { hT with pipes := hT.pipes.erase hh }

/-- A side of a lost pipe is taken out. -/
theorem erasePipe_lost {side : PipeSide} (hT : T.Twins ν net net') (hh : ν.pipe.Lost side h) :
    T.Twins ν { net with pipes := net.pipes.erase h } net' :=
  { hT with pipes := hT.pipes.erase_lost hh }

/-! ### Influences -/

/-- An influence and its counterpart are stored under one handle. -/
theorem insertInfluence {i i' : Influence} (hT : T.Twins ν net net') (hi : T.Influences ν i i') :
    T.Twins ν { net with influences := net.influences.insert i }
      { net' with influences := net'.influences.insert i' } :=
  { hT with influences := hT.influences.insert hi }

/-- An influence and its counterpart are taken out. -/
theorem eraseInfluence (hT : T.Twins ν net net') (h : Handle) :
    T.Twins ν { net with influences := net.influences.erase h }
      { net' with influences := net'.influences.erase h } :=
  { hT with influences := hT.influences.erase h }

/-! ### Nodes that come and go -/

/-- The next key has no name yet. -/
theorem new_node (hT : T.Twins ν net net') : ν.node net.nextKey = none := by
  cases hx : ν.node net.nextKey with
  | none => rfl
  | some x => exact absurd (hT.keys _ x hx) (Nat.lt_irrefl _)

/-- The key of a node that is added has no name yet. -/
theorem grows_putNode (hT : T.Twins ν net net') (x : Fate NodeKey Unit) :
    ν.Grows (ν.putNode net.nextKey x) :=
  ⟨Lexicon.grows_put hT.new_node, .refl _, .refl _⟩

/-- The key of a new node is new. -/
theorem key_ne_nextKey (hT : T.Twins ν net net')
    (hk : k ∈ net.nodes) : k.key ≠ net.nextKey := fun he ↦ by
  obtain ⟨x, hx⟩ := hT.known hk
  exact Nat.lt_irrefl _ (he ▸ hT.keys _ x hx)

/-- The key of a new node is new in the twin as well. -/
theorem key_ne_nextKey' (hT : T.Twins ν net net') (hk' : k' ∈ net'.nodes) : k'.key ≠ net'.nextKey :=
  fun he ↦ by
    obtain ⟨k, -, hkk⟩ := hT.nodes.of_mem_right hk'
    exact Nat.lt_irrefl _ (he ▸ hT.keys' _ _ hkk.key)

/-- No node goes by the key of a new one. -/
theorem name_ne_nextKey (hT : T.Twins ν net net') : ∀ x ∈ net.nodes.map Node.name,
    x.1 ≠ net.nextKey := fun x hx ↦ by
  obtain ⟨k, hk, rfl⟩ := List.mem_map.1 hx
  exact hT.key_ne_nextKey hk

theorem name_ne_nextKey' (hT : T.Twins ν net net') : ∀ x ∈ net'.nodes.map Node.name,
    x.1 ≠ net'.nextKey := fun x hx ↦ by
  obtain ⟨k', hk', rfl⟩ := List.mem_map.1 hx
  exact hT.key_ne_nextKey' hk'

/-- What has a name when the new key has got one is older than the key after it. -/
theorem lt_of_putNode (hT : T.Twins ν net net') {x y : Fate NodeKey Unit}
    (hkey : ν.node.put net.nextKey x key = some y) : key < net.nextKey + 1 := by
  obtain ⟨rfl, -⟩ | ⟨-, hold⟩ := Lexicon.of_put_eq_some hkey
  · exact Nat.lt_succ_self _
  · exact Nat.lt_succ_of_lt (hT.keys key y hold)

/-- Keys still differ when a node was added. -/
theorem nodup_addNode (hT : T.Twins ν net net') (hkey : k.key = net.nextKey) :
    ((net.nodes ++ [k]).map Node.key).Nodup := by
  rw [List.map_append, List.map_singleton, hkey]
  refine List.concat_eq_append ▸ hT.nodup.concat fun hmem ↦ ?_
  obtain ⟨l, hl, hnext⟩ := List.mem_map.1 hmem
  exact hT.key_ne_nextKey hl hnext

/-- The names of the nodes are known. -/
theorem known_names (hT : T.Twins ν net net') :
    ∀ x ∈ net.nodes.map Node.name, ∃ y, ν.node x.1 = some y := fun x hx ↦ by
  obtain ⟨k, hk, rfl⟩ := List.mem_map.1 hx
  exact hT.known hk

/-- The rules of the tables are nodes that were there before. -/
theorem of_ranked (hT : T.Twins ν net net') {t : Table} (ht : t ∈ net.tables) {index : UInt32}
    (hkey : t.rules[index]? = some key) :
    key ≠ net.nextKey ∧ ∃ key', ν.node.Kept key key' ∧ key' ≠ net'.nextKey := by
  have htables : Culled (Table.Alike ν.node) (fun _ ↦ False) net.tables net'.tables :=
    .of_forall₂ hT.tables
  obtain ⟨t', -, halike⟩ := (htables.of_mem ht).resolve_right id
  obtain ⟨key', -, hkept⟩ := of_optionRel_some (hkey ▸ halike.rules index)
  exact ⟨(hT.keys _ _ hkept).ne, key', hkept, (hT.keys' _ _ hkept).ne⟩

/-- **A node and its counterpart are added.** -/
theorem addNode (hT : T.Twins ν net net') (hkey : k.key = net.nextKey)
    (hkk : T.Nodes (ν.putNode net.nextKey (.kept net'.nextKey)) k k') :
    T.Twins (ν.putNode net.nextKey (.kept net'.nextKey))
      (net.enrol k) (net'.enrol k') :=
  have hν := hT.grows_putNode (.kept net'.nextKey)
  have hkey' : k'.key = net'.nextKey := hkk.key.unique (hkey ▸ Lexicon.put_self)
  have hinjective := hT.injective.put (k := net.nextKey) fun l hl ↦
    Nat.lt_irrefl _ (hT.keys' l _ hl)
  have hnew : ∀ x ∈ net.nodes.map Node.name, x.1 ≠ k.key := hkey ▸ hT.name_ne_nextKey
  have hnew' : ∀ x ∈ net'.nodes.map Node.name, x.1 ≠ k'.key := hkey' ▸ hT.name_ne_nextKey'
  { hT with
    tables :=
      Table.alike_map_enrol (hT.tables.imp fun _ _ ht ↦ ht.grow hν.node) hkk.key hkk.samePlace
    unrenamed := fun u hu ↦ by
      obtain ⟨t, ht, rfl⟩ := List.mem_map.1 hu
      rw [Network.enrol, Network.enrol, List.map_append, List.map_append]
      refine (hT.unrenamed t ht).enrol hν.node (fun index key hplace ↦ ?_) hnew hnew' hkk.key
        fun r hr ↦ (hkk.id_of_rule hr).2
      rw [hkey, hkey']
      exact hT.of_ranked ht hplace
    nodup := hT.nodup_addNode hkey
    directory := (hT.directory.grow hν.node).enrol hkk.key hkk.samePlace
    ids := by
      rw [Network.enrol, List.map_append]
      exact hT.ids.enrol
    ids' := by
      rw [Network.enrol, List.map_append]
      exact hT.ids'.enrol
    -- Nothing that is entered hides a node that could be found, because the two are told apart
    -- alike.
    reaches := fun hd ↦ by
      rw [Network.enrol, Network.enrol, List.map_append, List.map_append]
      exact ((hT.reaches hd).grow hν.node hT.known_names).enrol hnew hnew' hinjective hkk.key
        ((hT.discerned hd hkk).grow hν.node hT.known_names)
    registry := fun he ↦ by
      have hname : k'.name = k.name :=
        Prod.ext (by rw [Node.name, Node.name, hkey', hkey, (hT.sameKeys he).1])
          (hkk.id_eq (T.rename_of_exact he))
      show net'.registry.enrol k' = net.registry.enrol k
      rw [Registry.enrol_congr hname hkk.samePlace, hT.registry he]
    nodes := (hT.nodes.imp (fun _ _ hk ↦ hk.grow hν) fun _ hk ↦ hk.grow hν).append (.single hkk)
    keys := fun _ _ ↦ hT.lt_of_putNode
    -- The new key is the only one that has got a name; all others are named as before.
    keys' := fun l l' hl ↦ by
      obtain ⟨-, ⟨⟩⟩ | ⟨-, hold⟩ := Lexicon.of_put_eq_some hl
      · exact Nat.lt_succ_self _
      · exact Nat.lt_succ_of_lt (hT.keys' l l' hold)
    injective := hinjective
    sameKeys := fun he ↦ by
      obtain ⟨hnext, hsame⟩ := hT.sameKeys he
      refine ⟨congrArg (· + 1) hnext, fun l x hx ↦ ?_⟩
      obtain ⟨rfl, rfl⟩ | ⟨-, hold⟩ := Lexicon.of_put_eq_some hx
      · rw [hnext]
      · exact hsame l x hold
    pipes := hT.pipes.imp (fun _ _ hp ↦ hp.grow hν) fun _ _ hp ↦ lostPipe_grow hp hν
    influences := hT.influences.imp fun _ _ hi ↦ hi.grow hν
    flows := hT.flows.imp (fun _ _ hf ↦ hf.grow hν) fun _ _ hf ↦ hf.grow hν }

/-- **A lost source is added.** -/
theorem addNode_lost (hT : T.Twins ν net net') (hinexact : ¬ T.exact) (hkey : k.key = net.nextKey)
    (hk : T.LostNode (ν.putNode net.nextKey (.lost ())) k) :
    T.Twins (ν.putNode net.nextKey (.lost ()))
      (net.enrol k) net' :=
  have hν := hT.grows_putNode (.lost ())
  { hT with
    tables := by
      rw [Network.enrol, Table.map_enrol_of_plain hk.rule?]
      exact hT.tables.imp fun _ _ ht ↦ ht.grow hν.node
    unrenamed := by
      rw [Network.enrol, Table.map_enrol_of_plain hk.rule?, List.map_append]
      refine fun t ht ↦ (hT.unrenamed t ht).enrol_lost hν.node fun index key hplace ↦ ?_
      rw [hkey]
      exact (hT.of_ranked ht hplace).imp_right fun ⟨key', hkept, _⟩ ↦ ⟨key', hkept⟩
    nodup := hT.nodup_addNode hkey
    directory := (hT.directory.grow hν.node).enrol_lost hk.key hk.inPorts
    ids := by
      rw [Network.enrol, List.map_append]
      exact hT.ids.enrol
    reaches := fun hd ↦ by
      rw [Network.enrol, List.map_append]
      exact ((hT.reaches hd).grow hν.node hT.known_names).enrol_lost hk.key
    registry := fun he ↦ absurd he hinexact
    nodes := by
      have hall := (hT.nodes.imp (fun _ _ hk ↦ hk.grow hν) fun _ hk ↦ hk.grow hν).append
        (.skip hk .nil)
      rwa [List.append_nil] at hall
    keys := fun _ _ ↦ hT.lt_of_putNode
    keys' := fun l l' hl ↦ by
      obtain ⟨-, ⟨⟩⟩ | ⟨-, hold⟩ := Lexicon.of_put_eq_some hl
      exact hT.keys' l l' hold
    injective := hT.injective.put_lost
    sameKeys := fun he ↦ absurd he hinexact
    pipes := hT.pipes.imp (fun _ _ hp ↦ hp.grow hν) fun _ _ hp ↦ lostPipe_grow hp hν
    influences := hT.influences.imp fun _ _ hi ↦ hi.grow hν
    flows := hT.flows.imp (fun _ _ hf ↦ hf.grow hν) fun _ _ hf ↦ hf.grow hν }

/-- Taking out a node takes out its name. -/
theorem map_name_filter (key : NodeKey) (ns : List Node) :
    (ns.filter (·.key ≠ key)).map Node.name = (ns.map Node.name).filter (·.1 ≠ key) := by
  rw [List.filter_map]
  rfl

/-- Nodes that are counterparts have the same name if nothing is lost. -/
theorem name_eq (hT : T.Twins ν net net') (he : T.exact) (hkk : T.Nodes ν k k') :
    k'.name = k.name := by
  have hkey : Fate.kept k'.key = .kept k.key := (hT.sameKeys he).2 _ _ hkk.key
  exact Prod.ext (Fate.kept.inj hkey) (hkk.id_eq (T.rename_of_exact he))

/-- **A node and its counterpart are taken out.** -/
theorem eraseNode (hT : T.Twins ν net net') (hk : k ∈ net.nodes) (hk' : k' ∈ net'.nodes)
    (hkk : T.Nodes ν k k') : T.Twins ν (net.strike k) (net'.strike k') :=
  { hT with
    tables := Table.alike_map_strike hT.tables hT.injective hkk.key hkk.samePlace
    unrenamed := fun u hu ↦ by
      obtain ⟨t, ht, rfl⟩ := List.mem_map.1 hu
      rw [Network.strike, Network.strike, map_name_filter, map_name_filter]
      exact (hT.unrenamed t ht).strike
    nodup := hT.nodup.sublist (List.filter_sublist.map _)
    directory := hT.directory.strike hT.injective hkk.key hkk.samePlace
    ids := by
      rw [Network.strike, map_name_filter]
      exact hT.ids.strike (map_key_eq _ ▸ hT.nodup) (List.mem_map_of_mem hk)
    ids' := by
      rw [Network.strike, map_name_filter]
      exact hT.ids'.strike (map_key_eq _ ▸ hT.nodup') (List.mem_map_of_mem hk')
    reaches := fun hd ↦ by
      rw [Network.strike, Network.strike, map_name_filter, map_name_filter]
      exact (hT.reaches hd).strike (hT.discerned hd hkk)
    registry := fun he ↦ by
      show net'.registry.strike k' = net.registry.strike k
      rw [Registry.strike_congr (hT.name_eq he hkk) hkk.samePlace, hT.registry he]
    nodes := hT.nodes.filter fun _ _ hl ↦ hT.injective.decide_ne hl.key hkk.key }

/-- **A lost source is taken out.** -/
theorem eraseNode_lost (hT : T.Twins ν net net') (hk : k ∈ net.nodes) (hlost : T.LostNode ν k) :
    T.Twins ν (net.strike k) net' :=
  { hT with
    tables := by
      rw [Network.strike, Table.map_strike_of_plain hlost.rule?]
      exact hT.tables
    unrenamed := fun u hu ↦ by
      obtain ⟨t, ht, rfl⟩ := List.mem_map.1 hu
      rw [Network.strike, map_name_filter, ← List.filter_true (net'.nodes.map Node.name)]
      exact (hT.unrenamed t ht).strike
    nodup := hT.nodup.sublist (List.filter_sublist.map _)
    directory := hT.directory.strike_lost hlost.key
    ids := by
      rw [Network.strike, map_name_filter]
      exact hT.ids.strike (map_key_eq _ ▸ hT.nodup) (List.mem_map_of_mem hk)
    reaches := fun hd ↦ by
      rw [Network.strike, map_name_filter]
      exact (hT.reaches hd).strike_lost
    registry := fun he ↦ absurd he (hT.inexact_of_node hlost.key)
    nodes := hT.nodes.filter_left fun l l' hl ↦ by
      refine decide_eq_true fun he ↦ ?_
      exact hl.key.not_lost (he ▸ hlost.key) }

end Comparison.Twins

end HeaderFlow
