import HeaderFlow.Proofs.Probe
import HeaderFlow.Proofs.Network.Aftermath
import HeaderFlow.Proofs.Network.FlowFace
import HeaderFlow.Proofs.Network.RemovalSteps

/-!
# What probes know

A probe is told of flows one at a time and notes what it learns. `Network.Watched` says that its
notes fit the network: **what is noted is a flow that is there, at the node of the probe, and has
headers**, and the count is that of the notes. The sets are for what happens between two steps.
Flows in `X` may have lost their headers without the probe having been told, and of flows in `U` no
probe knows anything, so they may lose what they like.

Only flows at rules lose their headers unannounced, and none of them is noted anywhere. A flow at a
probe is forgotten before it goes, and looked at anew when its headers change. So each step of a
change that touches the notes or the flows keeps the relation, if the flow that it is about is put
into `X` or `U` for as long.

## Three levels

* `Probe.Knows` is about the notes of one probe and the arena of flows.
* `Node.Informed` is about a node, and says of any node that what it lists is there.
* `Network.Watched` says it of all nodes.

An elementary update is looked at on the lowest level that it touches, and lifted from there:
`withFlows` when flows change, `alike` when lists change, `forget` and `examine` when the probe is
told.
-/

namespace HeaderFlow

open Engine

variable {α β : Type} {net net' : Network} {F F' : Arena Flow} {S S' : Set NodeKey}
  {X X' U U' : Set Handle} {h g : Handle} {f : Flow} {n m : Node} {p q : Probe} {key key' : NodeKey}
  {t : Option Transition} {c : Chain}

/-! ### The notes of a probe -/

/-- The notes of a probe at the node with the key fit the flows. -/
structure Probe.Knows (S : Set NodeKey) (F : Arena Flow) (key : NodeKey) (X U : Set Handle)
    (p : Probe) : Prop
    extends p.Counted where
  /-- A probe that does not follow changes has no notes. -/
  idle : p.isRunning = false → p.results = []
  asleep : key ∈ S → p.isRunning = false
  known : ∀ e ∈ p.results, e.1 ∉ U ∧ ∃ f, F.find? e.1 = some f ∧ f.node = key ∧
    (e.1 ∈ X ∨ f.isAlive = true)

namespace Probe.Knows

/-- A probe without notes knows nothing. -/
theorem of_nil (hresults : p.results = []) (hdeciding : p.deciding = 0)
    (hasleep : key ∈ S → p.isRunning = false) : p.Knows S F key X U := by
  refine ⟨⟨hresults ▸ List.nodup_nil, ?_⟩, fun _ ↦ hresults, hasleep, ?_⟩
  · rw [hdeciding, noted, hresults, List.countP_nil]
  · rw [hresults]
    rintro e ⟨⟩

/-- A probe that does not follow changes counts nothing. -/
theorem deciding_eq_zero (hp : p.Knows S F key X U) (hidle : p.isRunning = false) :
    p.deciding = 0 := by
  rw [hp.count, noted, hp.idle hidle, List.countP_nil]

/-- More flows may have changed unannounced, and fewer need be unknown. -/
theorem mono (hp : p.Knows S F key X U) (hX : X ⊆ X') (hU : U' ⊆ U) : p.Knows S F key X' U' := by
  refine { hp with known := fun e he ↦ ?_ }
  obtain ⟨hout, f, hf, hnode, hlive⟩ := hp.known e he
  exact ⟨fun hmem ↦ hout (hU hmem), f, hf, hnode, hlive.imp_left (hX ·)⟩

/-- The flows have changed, in a way that is of no account or is due to be told. -/
theorem withFlows (hp : p.Knows S F key ∅ U) (hU : U' ⊆ U) (hF : ∀ g f, F.find? g = some f → g ∉ U →
    ∃ f', F'.find? g = some f' ∧ f'.node = f.node ∧ (g ∈ X ∨ f'.isAlive = f.isAlive)) :
    p.Knows S F' key X U' := by
  refine { hp with known := fun e he ↦ ?_ }
  obtain ⟨hout, f, hf, hnode, hlive⟩ := hp.known e he
  obtain ⟨f', hf', hnode', hsame⟩ := hF e.1 f hf hout
  exact ⟨fun hmem ↦ hout (hU hmem), f', hf', hnode'.trans hnode, hsame.imp_right fun heq ↦
    heq.trans (hlive.resolve_left (Set.notMem_empty _))⟩

/-- A flow at another node is not noted. -/
theorem elsewhere (hp : p.Knows S F key X U) (hX : X ⊆ {h}) (hf : F.find? h = some f)
    (hne : f.node ≠ key) : p.Knows S F key ∅ (insert h U) := by
  have hother : ∀ e ∈ p.results, e.1 ≠ h := by
    rintro ⟨_, r⟩ he rfl
    obtain ⟨-, f', hf', hnode, -⟩ := hp.known _ he
    exact hne (Option.some.inj (hf.symm.trans hf') ▸ hnode)
  refine { hp with known := fun e he ↦ ?_ }
  obtain ⟨hout, f', hf', hnode, hlive⟩ := hp.known e he
  exact ⟨fun hmem ↦ hmem.elim (hother e he) hout, f', hf', hnode,
    .inr (hlive.resolve_left fun hmem ↦ hother e he (hX hmem))⟩

/-- **A flow that is gone is forgotten.** -/
theorem forget (hp : p.Knows S F key X U) (hX : X ⊆ {h}) (hrunning : p.isRunning = true)
    (hq : p.forget h = .ok (q, t)) : q.Knows S F key ∅ (insert h U) := by
  obtain rfl := hp.forget_eq hq
  refine ⟨hp.without h, fun hidle ↦ absurd (hrunning.symm.trans hidle) (by simp), hp.asleep,
    fun e he ↦ ?_⟩
  obtain ⟨he, hne⟩ := List.mem_filter.1 he
  have hne := of_decide_eq_true hne
  obtain ⟨hout, f, hf, hnode, hlive⟩ := hp.known e he
  exact ⟨fun hmem ↦ hmem.elim hne hout, f, hf, hnode,
    .inr (hlive.resolve_left fun hmem ↦ hne (hX hmem))⟩

/-- **A flow that is asked about has headers.** -/
theorem examine (hp : p.Knows S F key X ∅) (hX : X ⊆ {h}) (hrunning : p.isRunning = true)
    (hf : F.find? h = some f) (hnode : f.node = key) (hlive : f.isAlive = true)
    (hq : p.examine h c = .ok (q, t)) : q.Knows S F key ∅ ∅ := by
  have hold : ∀ e ∈ p.results, e.1 ∉ (∅ : Set Handle) ∧
      ∃ f, F.find? e.1 = some f ∧ f.node = key ∧ (e.1 ∈ (∅ : Set Handle) ∨ f.isAlive = true) := by
    intro e he
    obtain ⟨hout, f', hf', hnode', hlive'⟩ := hp.known e he
    refine ⟨hout, f', hf', hnode', .inr (hlive'.elim (fun hmem ↦ ?_) id)⟩
    exact Option.some.inj (hf'.symm.trans (hX hmem ▸ hf)) ▸ hlive
  obtain ⟨-, rfl⟩ | ⟨r, -, -, rfl⟩ := hp.examine_eq hq
  · exact { hp with known := hold }
  · refine ⟨hp.with_record h r, fun hidle ↦ absurd (hrunning.symm.trans hidle) (by simp), hp.asleep,
      fun e he ↦ ?_⟩
    rcases List.mem_cons.1 he with rfl | he
    · exact ⟨Set.notMem_empty _, f, hf, hnode, .inr hlive⟩
    · exact hold e (List.mem_filter.1 he).1

end Probe.Knows

/-! ### A network with its probes -/

/-- What the node lists is there, and if it is a probe, it knows the flows. -/
structure Node.Informed (S : Set NodeKey) (F : Arena Flow) (X U : Set Handle) (n : Node) :
    Prop where
  once : n.flows.Nodup
  roster : ∀ h ∈ n.flows, ∃ f, F.find? h = some f ∧ f.node = n.key
  probe : ∀ p, n.probe? = some p → p.Knows S F n.key X U

namespace Node.Informed

/-- The probe is the same, and no more is listed. -/
theorem alike (hn : n.Informed S F X U) (hkey : m.key = n.key) (hprobe : m.probe? = n.probe?)
    (hsub : m.flows.Sublist n.flows) : m.Informed S F X U where
  once := hn.once.sublist hsub
  roster h hh := hkey ▸ hn.roster h (hsub.subset hh)
  probe p hp := hkey ▸ hn.probe p (hprobe ▸ hp)

theorem mono (hn : n.Informed S F X U) (hX : X ⊆ X') (hU : U' ⊆ U) : n.Informed S F X' U' :=
  { hn with probe := fun p hp ↦ (hn.probe p hp).mono hX hU }

/-- The flows have changed, but are where they were. -/
theorem withFlows (hn : n.Informed S F ∅ U) (hU : U' ⊆ U) (hF : ∀ g f, F.find? g = some f →
    ∃ f', F'.find? g = some f' ∧ f'.node = f.node ∧ (g ∈ X ∨ g ∈ U ∨ f'.isAlive = f.isAlive)) :
    n.Informed S F' X U' := by
  refine ⟨hn.once, fun h hh ↦ ?_, fun p hp ↦ (hn.probe p hp).withFlows hU fun g f hf hg ↦ ?_⟩
  · obtain ⟨f, hf, hnode⟩ := hn.roster h hh
    obtain ⟨f', hf', hnode', -⟩ := hF h f hf
    exact ⟨f', hf', hnode'.trans hnode⟩
  · obtain ⟨f', hf', hnode, hsame⟩ := hF g f hf
    exact ⟨f', hf', hnode, hsame.imp_right fun hsame ↦ hsame.resolve_left hg⟩

/-- A flow at another node is not noted. -/
theorem elsewhere (hn : n.Informed S F X U) (hX : X ⊆ {h}) (hf : F.find? h = some f)
    (hne : f.node ≠ n.key) : n.Informed S F ∅ (insert h U) :=
  { hn with probe := fun p hp ↦ (hn.probe p hp).elsewhere hX hf hne }

end Node.Informed

/-- All nodes of the network are informed. -/
structure Network.Watched (S : Set NodeKey) (X U : Set Handle) (net : Network) : Prop where
  nodup : (net.nodes.map Node.key).Nodup
  fresh : ∀ n ∈ net.nodes, n.key < net.nextKey
  valid : net.flows.Valid
  nodes : ∀ n ∈ net.nodes, n.Informed S net.flows X U

namespace Network.Watched

/-- More flows may have changed unannounced, and fewer need be unknown. -/
theorem mono (hW : net.Watched S X U) (hX : X ⊆ X') (hU : U' ⊆ U) : net.Watched S X' U' :=
  { hW with nodes := fun n hn ↦ (hW.nodes n hn).mono hX hU }

/-- Probes that were asleep may be started. -/
theorem awaken (hW : net.Watched S X U) : net.Watched ∅ X U :=
  { hW with nodes := fun n hn ↦ { hW.nodes n hn with
      probe := fun p hp ↦ { (hW.nodes n hn).probe p hp with asleep := by rintro ⟨⟩ } } }

/-- Every node has changed in place. -/
theorem of_map {e : Node → Node} (hW : net.Watched S X U) (hnodes : net'.nodes = net.nodes.map e)
    (hnext : net'.nextKey = net.nextKey) (hvalid : net'.flows.Valid) (hkey : ∀ n, (e n).key = n.key)
    (he : ∀ n ∈ net.nodes, (e n).Informed S' net'.flows X' U') : net'.Watched S' X' U' := by
  refine ⟨?_, fun m hm ↦ ?_, hvalid, fun m hm ↦ ?_⟩
  · rw [hnodes, List.map_map, show Node.key ∘ e = Node.key from funext hkey]
    exact hW.nodup
  all_goals
    rw [hnodes] at hm
    obtain ⟨n, hn, rfl⟩ := List.mem_map.1 hm
  · rw [hkey, hnext]
    exact hW.fresh n hn
  · exact he n hn

/-- One node has changed. -/
theorem withNode {e : Node → Node} (hW : net.Watched S X U) (hkey : ∀ n, (e n).key = n.key)
    (he : ∀ n ∈ net.nodes, n.key = key → (e n).Informed S' net.flows X' U')
    (hother : ∀ n ∈ net.nodes, n.key ≠ key → n.Informed S' net.flows X' U') :
    (withNode net key e).Watched S' X' U' := by
  refine hW.of_map (e := fun n ↦ if n.key == key then e n else n) rfl rfl hW.valid (fun n ↦ ?_)
    fun n hn ↦ ?_
  · split
    · exact hkey n
    · rfl
  · split
    · exact he n hn (beq_iff_eq.1 ‹_›)
    · exact hother n hn fun heq ↦ ‹¬ _› (beq_iff_eq.2 heq)

/-- Only the faces of the nodes and the flows are of account. -/
theorem of_face (hW : net.Watched S X U) (hface : net'.face = net.face) : net'.Watched S X U := by
  refine ⟨keys_of_face hface ▸ hW.nodup,
    fun m hm ↦ ?_, flows_of_face hface ▸ hW.valid, fun m hm ↦ ?_⟩
  all_goals obtain ⟨n, hn, hsame⟩ := exists_of_face hface hm
  · rw [nextKey_of_face hface, ← Node.key_of_face hsame]
    exact hW.fresh n hn
  · rw [flows_of_face hface]
    exact (hW.nodes n hn).alike (Node.key_of_face hsame).symm (Node.probe?_of_face hsame).symm
      (Node.flows_of_face hsame ▸ .refl _)

/-- Flows have changed, but are where they were. -/
theorem withFlows (hW : net.Watched S ∅ U) (hvalid : F'.Valid) (hU : U' ⊆ U)
    (hF : ∀ g f, net.flows.find? g = some f → ∃ f', F'.find? g = some f' ∧ f'.node = f.node ∧
      (g ∈ X ∨ g ∈ U ∨ f'.isAlive = f.isAlive)) : Watched S X U' { net with flows := F' } :=
  { hW with valid := hvalid, nodes := fun n hn ↦ (hW.nodes n hn).withFlows hU hF }

/-- One flow has changed. -/
theorem withFlow {e : Flow → Flow} (hW : net.Watched S ∅ U) (he : ∀ f, (e f).node = f.node)
    (hh : h ∈ X ∨ h ∈ U ∨ ∀ f, (e f).isAlive = f.isAlive) : (withFlow net h e).Watched S X U := by
  refine hW.withFlows (Arena.valid_modify hW.valid) subset_rfl fun g f hf ↦ ?_
  by_cases hgh : g = h
  · subst hgh
    exact ⟨e f, Arena.find?_modify_self hf, he f,
      hh.imp_right fun hh ↦ hh.imp_right fun hsame ↦ hsame f⟩
  · exact ⟨f, (Arena.find?_modify_of_ne hgh).trans hf, rfl, .inr (.inr rfl)⟩

/-- **Of a new flow no probe knows anything.** -/
theorem insert (hW : net.Watched S ∅ ∅) (f : Flow) :
    Watched S ∅ {net.flows.nextHandle} { net with flows := net.flows.insert f } := by
  have hmid : Watched S ∅ ∅ { net with flows := net.flows.insert f } :=
    hW.withFlows (Arena.valid_insert hW.valid) subset_rfl fun g f' hf' ↦
      ⟨f', Arena.find?_insert_of_some hW.valid hf', rfl, .inr (.inr rfl)⟩
  refine { hmid with nodes := fun n hn ↦ { hmid.nodes n hn with probe := fun p hp ↦ ?_ } }
  have hp' := (hmid.nodes n hn).probe p hp
  refine { hp' with known := fun e he ↦ ⟨fun hnew ↦ ?_, (hp'.known e he).2⟩ }
  obtain ⟨-, f', hf', -⟩ := ((hW.nodes n hn).probe p hp).known e he
  rw [Set.mem_singleton_iff.1 hnew, Arena.find?_nextHandle hW.valid] at hf'
  cases hf'

/-- A flow is listed that was not. -/
theorem enlist (hW : net.Watched S X U) (hf : net.flows.find? h = some f) (hnode : f.node = key)
    (hnew : ∀ n ∈ net.nodes, n.key = key → h ∉ n.flows) :
    (Engine.withNode net key fun n ↦ { n with flows := n.flows ++ [h] }).Watched S X U := by
  refine hW.withNode (fun _ ↦ rfl) (fun n hn hkey ↦ ?_) fun n hn _ ↦ hW.nodes n hn
  obtain ⟨honce, hroster, hprobe⟩ := hW.nodes n hn
  refine ⟨?_, fun g hg ↦ ?_, hprobe⟩
  · exact List.nodup_append.2 ⟨honce, List.nodup_singleton h, fun a ha b hb hab ↦
      hnew n hn hkey (List.mem_singleton.1 hb ▸ hab ▸ ha)⟩
  · rcases List.mem_append.1 hg with hg | hg
    · exact hroster g hg
    · exact ⟨f, List.mem_singleton.1 hg ▸ hf, hnode.trans hkey.symm⟩

/-- **A flow at a node that is no probe is noted nowhere.** -/
theorem unknown (hW : net.Watched S ∅ U) (hf : net.flows.find? h = some f)
    (hplain : ∀ n ∈ net.nodes, n.key = f.node → n.probe? = none) : net.Watched S ∅
      (Insert.insert h U) := by
  refine { hW with nodes := fun n hn ↦ ?_ }
  by_cases hkey : n.key = f.node
  · exact { hW.nodes n hn
      with probe := fun p hp ↦ absurd ((hplain n hn hkey).symm.trans hp) (by simp) }
  · exact (hW.nodes n hn).elsewhere (Set.empty_subset _) hf (Ne.symm hkey)

/-- **A flow of which no probe knows anything is gone**, and is listed no more. -/
theorem discard (hW : net.Watched S ∅ (Insert.insert h U))
    (hh : ∀ f, net.flows.find? h = some f → f.node = key) :
    Watched S ∅ U (Engine.withNode { net with flows := net.flows.erase h } key fun n ↦
      { n with flows := n.flows.filter (· ≠ h) }) := by
  have hF : ∀ g f', net.flows.find? g = some f' → g ≠ h → (net.flows.erase h).find? g = some f' :=
    fun g f' hf' hne ↦ by rw [Arena.find?_erase, if_neg hne, hf']
  refine hW.of_map
    (e := fun n ↦ if n.key == key then { n with flows := n.flows.filter (· ≠ h) } else n) rfl rfl
    (Arena.valid_erase hW.valid) (fun n ↦ ?_) fun n hn ↦ ?_
  · split <;> rfl
  · obtain ⟨honce, hroster, hprobe⟩ := hW.nodes n hn
    have hknows : ∀ p, n.probe? = some p → p.Knows S (net.flows.erase h) n.key ∅ U := fun p hp ↦
      (hprobe p hp).withFlows (Set.subset_insert h U) fun g f' hf' hg ↦
        ⟨f', hF g f' hf' fun hgh ↦ hg (.inl hgh), rfl, .inr rfl⟩
    split
    · refine ⟨honce.filter _, fun g hg ↦ ?_, hknows⟩
      obtain ⟨hg, hne⟩ := List.mem_filter.1 hg
      obtain ⟨f', hf', hnode⟩ := hroster g hg
      exact ⟨f', hF g f' hf' (of_decide_eq_true hne), hnode⟩
    · rename_i hkey
      refine ⟨honce, fun g hg ↦ ?_, hknows⟩
      obtain ⟨f', hf', hnode⟩ := hroster g hg
      refine ⟨f', hF g f' hf' ?_, hnode⟩
      rintro rfl
      exact hkey (beq_iff_eq.2 (hnode.symm.trans (hh f' hf')))

/-- **Telling a probe**, if it draws the right conclusion. -/
theorem notify {change : Network → Checked FlowChange} (hW : net.Watched S X U) (hX : X ⊆ {h})
    (hU : U' ⊆ Insert.insert h U) (hf : net.flows.find? h = some f)
    (hl : Leads (notify f.node h change) net () net')
    (hlearn : ∀ (p q : Probe) (t : Option Transition) (c : FlowChange),
      p.Knows S net.flows f.node X U →
      p.isRunning = true → change net = .ok c → p.update h c = .ok (q, t) →
      q.Knows S net.flows f.node ∅ U') : net'.Watched S ∅ U' := by
  have hother : ∀ n ∈ net.nodes, n.key ≠ f.node → n.Informed S net.flows ∅ U' := fun n hn hkey ↦
    ((hW.nodes n hn).elsewhere hX hf (Ne.symm hkey)).mono subset_rfl hU
  obtain ⟨rfl, hidle⟩ | ⟨n, p, c, q, t, hn, hp, hrunning, hc, hq, rfl⟩ := hl.notify
  · refine { hW with nodes := fun n hn ↦ ?_ }
    by_cases hkey : n.key = f.node
    · refine { hW.nodes n hn with probe := fun p hp ↦ ?_ }
      have hp' := (hW.nodes n hn).probe p hp
      have hstill := hidle n p (hkey ▸ nodeAt?_of_mem hW.nodup hn) hp
      exact .of_nil (hp'.idle hstill) (hp'.deciding_eq_zero hstill) hp'.asleep
    · exact hother n hn hkey
  · obtain ⟨hmem, hkey⟩ := nodeAt?_eq_some hn
    refine hW.withNode (fun _ ↦ rfl) (fun m hm hmkey ↦ ?_) hother
    obtain rfl := eq_of_key_eq hW.nodup hm hmem (hmkey.trans hkey.symm)
    refine { hW.nodes m hm with probe := fun q' hq' ↦ ?_ }
    obtain rfl := Option.some.inj hq'
    exact hmkey ▸ hlearn p q t c (hmkey ▸ (hW.nodes m hm).probe p hp) hrunning hc hq

/-- A flow that is gone is forgotten. -/
theorem notify_gone (hW : net.Watched S ∅ U) (hf : net.flows.find? h = some f)
    (hl : Leads (Engine.notify f.node h gone) net () net') : net'.Watched S ∅ (Insert.insert h U) :=
  hW.notify (Set.empty_subset _) subset_rfl hf hl fun p q t c hp hrunning hc hq ↦ by
    obtain rfl := Except.ok.inj hc
    exact hp.forget (Set.empty_subset _) hrunning hq

/-- **A flow that has changed is looked at anew**, or is forgotten if it has no headers any more. -/
theorem notify_changed (hW : net.Watched S {h} ∅) (hf : net.flows.find? h = some f)
    (hl : Leads (Engine.notify f.node h (changed h)) net () net') : net'.Watched S ∅ ∅ :=
  hW.notify subset_rfl (Set.empty_subset _) hf hl fun p q t c hp hrunning hc hq ↦ by
    obtain ⟨chain, hchain, rfl⟩ := Checked.map_eq_ok.1 hc
    obtain ⟨hops, -, heq⟩ := Checked.bind_eq_ok.1 hchain
    obtain rfl := Except.ok.inj heq
    rw [Probe.update, show Probe.hasHeaders _ = f.isAlive by rw [Probe.hasHeaders, hf]; rfl] at hq
    split at hq
    · exact hp.examine subset_rfl hrunning hf rfl ‹_› hq
    · exact (hp.forget subset_rfl hrunning hq).mono subset_rfl (Set.empty_subset _)

/-- **A flow that has arrived is looked at.** -/
theorem notify_arrived (hW : net.Watched S ∅ ∅) (hf : net.flows.find? h = some f)
    (hl : Leads (Engine.notify f.node h (arrived h)) net () net') : net'.Watched S ∅ ∅ :=
  hW.notify (Set.empty_subset _) (Set.empty_subset _) hf hl fun p q t c hp hrunning hc hq ↦ by
    obtain ⟨chain, hchain, rfl⟩ := Checked.map_eq_ok.1 hc
    obtain ⟨hops, -, heq⟩ := Checked.bind_eq_ok.1 hchain
    obtain rfl := Except.ok.inj heq
    rw [Probe.update, show Probe.hasHeaders _ = f.isAlive by rw [Probe.hasHeaders, hf]; rfl] at hq
    split at hq
    · exact hp.examine (Set.empty_subset _) hrunning hf rfl ‹_› hq
    · obtain ⟨rfl, -⟩ := Prod.mk.inj (Except.ok.inj hq)
      exact hp

end Network.Watched

end HeaderFlow
