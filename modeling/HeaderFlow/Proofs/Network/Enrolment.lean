import HeaderFlow.Proofs.Hiding
import HeaderFlow.Proofs.Transitions
import HeaderFlow.Proofs.Network.FlowFace

/-!
# Flows that are listed, and counts that are not short

**A flow with headers to send is on the list of its node** (`Network.Books`). So is every flow that
another one has among its children. A flow that has just arrived is on no list; but it has nothing
to send until it is, and no flow has it among its children. So nothing is asked of it, and if the
change is broken off at that point it stays as it is.

A flow is looked at anew because it is on a list or among the children of a flow. This may be some
time after the list was read, and meanwhile flows may have been dropped. The books are therefore
kept with a set of flows that were listed once: **each of these is listed, or it is gone**.

The books also say that no probe counts too few flows (`Probe.Solvent`). Here is what changes of a
network do to them: flows may come and go and change, lists may grow, and a list may lose what is
gone.

## Two general forms

* `Books.withFlows`: the nodes stay as they are, and the flows become others. What has to be shown
  is that those that have something to send, or are somebody's children, were enrolled.
* `Books.withNodes`: the flows stay, and the nodes become others. What has to be shown is that no
  list loses a flow that is there, and that probes stay solvent.

Every other lemma is one of the two with a particular update put in.
-/

namespace HeaderFlow

open Engine Checked

variable {α β : Type} {net net' : Network} {F : Arena Flow} {R R' : Set Handle} {h g : Handle}
  {f : Flow} {n : Node} {key : NodeKey}

/-! ### The books -/

/-- The flow is on the list of its node, or it is gone. -/
def Network.Enrolled (net : Network) (h : Handle) : Prop :=
  net.flows.Past h ∨ ∃ f, net.flows.find? h = some f ∧ f.node < net.nextKey ∧
    ∀ n ∈ net.nodes, n.key = f.node → h ∈ n.flows

/-- Flows that have something to send are listed, and so are the flows in `R` for as long as they
are there. No probe counts too few flows. -/
structure Network.Books (R : Set Handle) (net : Network) : Prop where
  fresh : ∀ n ∈ net.nodes, n.key < net.nextKey
  valid : net.flows.Valid
  listed : ∀ n ∈ net.nodes, ∀ h ∈ n.flows, net.Enrolled h
  children : ∀ h f, net.flows.find? h = some f → ∀ c ∈ f.children, net.Enrolled c
  processed : ∀ h f, net.flows.find? h = some f → f.processed ≠ none → net.Enrolled h
  solvent : ∀ n ∈ net.nodes, ∀ p, n.probe? = some p → p.Solvent
  enrolled : ∀ h ∈ R, net.Enrolled h

namespace Network

/-- A live flow is listed at every node that has its key. -/
theorem Enrolled.mem (he : net.Enrolled h) (hf : net.flows.find? h = some f) (hn : n ∈ net.nodes)
    (hkey : n.key = f.node) : h ∈ n.flows := by
  rcases he with hpast | ⟨f', hf', -, hlisted⟩
  · exact absurd (hpast.find?_eq_none.symm.trans hf) (by simp)
  · obtain rfl := Option.some.inj (hf.symm.trans hf')
    exact hlisted n hn hkey

/-- **What keeps a flow enrolled**: handles that are past stay so, flows stay where they are, and no
list loses a flow that is there. -/
theorem Enrolled.imp (he : net.Enrolled h) (hpast : net.flows.Past h → net'.flows.Past h)
    (hlive : ∀ f, net.flows.find? h = some f →
      net'.flows.Past h ∨ ∃ f', net'.flows.find? h = some f' ∧ f'.node = f.node)
    (hnext : net.nextKey ≤ net'.nextKey)
    (hnodes : ∀ m ∈ net'.nodes, m.key < net.nextKey → net'.flows.Past h ∨
      ∃ n ∈ net.nodes, n.key = m.key ∧ (h ∈ n.flows → h ∈ m.flows)) : net'.Enrolled h := by
  rcases he with hp | ⟨f, hf, hlt, hlisted⟩
  · exact .inl (hpast hp)
  rcases hlive f hf with hp | ⟨f', hf', hnode⟩
  · exact .inl hp
  refine .inr ⟨f', hf', hnode ▸ hlt.trans_le hnext, fun m hm hkey ↦ ?_⟩
  have hmkey : m.key = f.node := hkey.trans hnode
  rcases hnodes m hm (hmkey ▸ hlt) with hp | ⟨n, hn, hsame, hkeep⟩
  · exact absurd (hp.find?_eq_none.symm.trans hf') (by simp)
  · exact hkeep (hlisted n hn (hsame.trans hmkey))

/-- A flow stays enrolled if it stays at its node, or goes. -/
theorem Enrolled.withFlows (he : net.Enrolled h) (hpast : net.flows.Past h → F.Past h)
    (hlive : ∀ f, net.flows.find? h = some f →
      F.Past h ∨ ∃ f', F.find? h = some f' ∧ f'.node = f.node) :
    Enrolled { net with flows := F } h :=
  he.imp hpast hlive le_rfl fun m hm _ ↦ .inr ⟨m, hm, rfl, id⟩

/-- Being enrolled depends on the face alone. -/
theorem Enrolled.of_face (he : net.Enrolled h) (hface : net'.face = net.face) :
    net'.Enrolled h := by
  have hflows := flows_of_face hface
  refine he.imp (hflows ▸ id) (fun f hf ↦ .inr ⟨f, hflows ▸ hf, rfl⟩) (nextKey_of_face hface).ge
    fun m hm _ ↦ .inr ?_
  obtain ⟨n, hn, hsame⟩ := exists_of_face hface hm
  exact ⟨n, hn, Node.key_of_face hsame, Node.flows_of_face hsame ▸ id⟩

namespace Books

/-- Fewer flows may be known to be listed. -/
theorem mono (hB : net.Books R) (hR : R' ⊆ R) : net.Books R' :=
  { hB with enrolled := fun h hh ↦ hB.enrolled h (hR hh) }

/-- More flows are known to be listed. -/
theorem enrol (hB : net.Books R) (hR : ∀ h ∈ R', net.Enrolled h) : net.Books (R ∪ R') :=
  { hB with enrolled := fun h hh ↦ hh.elim (hB.enrolled h) (hR h) }

/-- **Flows have changed.** -/
theorem withFlows (hB : net.Books R) (hvalid : F.Valid)
    (he : ∀ h, net.Enrolled h → Enrolled { net with flows := F } h)
    (hF : ∀ h f, F.find? h = some f →
      (∀ c ∈ f.children, net.Enrolled c) ∧ (f.processed ≠ none → net.Enrolled h)) :
    Books R { net with flows := F } where
  fresh := hB.fresh
  valid := hvalid
  listed n hn h hh := he h (hB.listed n hn h hh)
  children h f hf c hc := he c ((hF h f hf).1 c hc)
  processed h f hf hs := he h ((hF h f hf).2 hs)
  solvent := hB.solvent
  enrolled h hh := he h (hB.enrolled h hh)

/-- **One flow has changed.** -/
theorem withFlow {e : Flow → Flow} (hB : net.Books R) (hnode : ∀ f, (e f).node = f.node)
    (hchildren : ∀ f, net.flows.find? h = some f →
      ∀ c ∈ (e f).children, c ∈ f.children ∨ net.Enrolled c)
    (hprocessed : net.Enrolled h ∨ ∀ f, f.processed = none → (e f).processed = none) :
    (withFlow net h e).Books R := by
  refine hB.withFlows (Arena.valid_modify hB.valid) (fun g hg ↦ hg.withFlows
    Arena.past_modify.2 fun f hf ↦ .inr ?_) fun g f' hf' ↦ ?_
  · by_cases hgh : g = h
    · subst hgh
      exact ⟨e f, Arena.find?_modify_self hf, hnode f⟩
    · exact ⟨f, (Arena.find?_modify_of_ne hgh).trans hf, rfl⟩
  · by_cases hgh : g = h
    · subst hgh
      cases hf : net.flows.find? g with
      | none => simp [Arena.find?_modify, hf] at hf'
      | some f =>
        obtain rfl := Option.some.inj ((Arena.find?_modify_self hf).symm.trans hf')
        refine ⟨fun c hc ↦ (hchildren f hf c hc).elim (hB.children g f hf c) id, fun hs ↦ ?_⟩
        exact hprocessed.elim id fun hkeep ↦ hB.processed g f hf fun hnone ↦ hs (hkeep f hnone)
    · rw [Arena.find?_modify_of_ne hgh] at hf'
      exact ⟨hB.children g f' hf', hB.processed g f' hf'⟩

/-- A new flow without headers to send. -/
theorem insert (hB : net.Books R) (hchildren : f.children = []) (hprocessed : f.processed = none) :
    Books R { net with flows := net.flows.insert f } := by
  refine hB.withFlows (Arena.valid_insert hB.valid) (fun g hg ↦ hg.withFlows Arena.Past.insert
    fun f' hf' ↦ .inr ⟨f', Arena.find?_insert_of_some hB.valid hf', rfl⟩) fun g f' hf' ↦ ?_
  rcases Arena.of_find?_insert hB.valid hf' with ⟨-, rfl⟩ | ⟨-, hf'⟩
  · exact ⟨by simp [hchildren], fun hs ↦ absurd hprocessed hs⟩
  · exact ⟨hB.children g f' hf', hB.processed g f' hf'⟩

/-- A flow is gone. -/
theorem erase (hB : net.Books R) (h : Handle) :
    Books R { net with flows := net.flows.erase h } := by
  refine hB.withFlows (Arena.valid_erase hB.valid) (fun g hg ↦ hg.withFlows Arena.Past.erase
    fun f' hf' ↦ ?_) fun g f' hf' ↦ ?_
  · by_cases hgh : g = h
    · subst hgh
      exact .inl (Arena.past_erase hf')
    · exact .inr ⟨f', by rw [Arena.find?_erase, if_neg hgh, hf'], rfl⟩
  · rw [Arena.find?_erase] at hf'
    split at hf'
    · cases hf'
    · exact ⟨hB.children g f' hf', hB.processed g f' hf'⟩

/-- **The nodes have changed.** -/
theorem withNodes (hB : net.Books R) (hflows : net'.flows = net.flows)
    (he : ∀ h, net.Enrolled h → net'.Enrolled h) (hfresh : ∀ n ∈ net'.nodes, n.key < net'.nextKey)
    (hlisted : ∀ n ∈ net'.nodes, ∀ h ∈ n.flows, net'.Enrolled h)
    (hsolvent : ∀ n ∈ net'.nodes, ∀ p, n.probe? = some p → p.Solvent) : net'.Books R where
  fresh := hfresh
  valid := hflows ▸ hB.valid
  listed := hlisted
  children h f hf c hc := he c (hB.children h f (hflows ▸ hf) c hc)
  processed h f hf hs := he h (hB.processed h f (hflows ▸ hf) hs)
  solvent := hsolvent
  enrolled h hh := he h (hB.enrolled h hh)

/-- **Only the faces of the nodes and the flows are of account.** -/
theorem of_face (hB : net.Books R) (hface : net'.face = net.face) : net'.Books R := by
  have he : ∀ h, net.Enrolled h → net'.Enrolled h := fun _ he ↦ he.of_face hface
  refine hB.withNodes (flows_of_face hface) he (fun m hm ↦ ?_) (fun m hm h hh ↦ ?_)
    fun m hm p hp ↦ ?_
  all_goals obtain ⟨n, hn, hsame⟩ := exists_of_face hface hm
  · rw [nextKey_of_face hface, ← Node.key_of_face hsame]
    exact hB.fresh n hn
  · rw [← Node.flows_of_face hsame] at hh
    exact he h (hB.listed n hn h hh)
  · rw [← Node.probe?_of_face hsame] at hp
    exact hB.solvent n hn p hp

/-- Every node has changed in place. No list loses a flow that is there. -/
theorem of_map {e : Node → Node} (hB : net.Books R) (hnodes : net'.nodes = net.nodes.map e)
    (hflows : net'.flows = net.flows) (hnext : net'.nextKey = net.nextKey)
    (hkey : ∀ n, (e n).key = n.key)
    (hkeep : ∀ n ∈ net.nodes, ∀ h ∈ n.flows, h ∈ (e n).flows ∨ net.flows.Past h)
    (hlisted : ∀ n ∈ net.nodes, ∀ h ∈ (e n).flows, h ∈ n.flows ∨ net'.Enrolled h)
    (hsolvent : ∀ n ∈ net.nodes, ∀ p, (e n).probe? = some p → p.Solvent) : net'.Books R := by
  have hmap : ∀ {P : Node → Prop}, (∀ n ∈ net.nodes, P (e n)) → ∀ m ∈ net'.nodes, P m := by
    intro P hP m hm
    obtain ⟨n, hn, rfl⟩ := List.mem_map.1 (hnodes ▸ hm)
    exact hP n hn
  have he : ∀ h, net.Enrolled h → net'.Enrolled h := by
    refine fun h hh ↦ hh.imp (hflows ▸ id) (fun f hf ↦ .inr ⟨f, hflows ▸ hf, rfl⟩) hnext.ge
      (hmap fun n hn _ ↦ ?_)
    by_cases hpast : net.flows.Past h
    · exact .inl (hflows ▸ hpast)
    · exact .inr ⟨n, hn, (hkey n).symm, fun hmem ↦ (hkeep n hn h hmem).resolve_right hpast⟩
  refine hB.withNodes hflows he (hmap fun n hn ↦ ?_) (hmap fun n hn h hh ↦ ?_) (hmap hsolvent)
  · rw [hkey, hnext]
    exact hB.fresh n hn
  · exact (hlisted n hn h hh).elim (fun hmem ↦ he h (hB.listed n hn h hmem)) id

/-- One node has changed. -/
theorem withNode {e : Node → Node} (hB : net.Books R) (hkey : ∀ n, (e n).key = n.key)
    (hkeep : ∀ n ∈ net.nodes, n.key = key → ∀ h ∈ n.flows, h ∈ (e n).flows ∨ net.flows.Past h)
    (hlisted : ∀ n ∈ net.nodes, n.key = key → ∀ h ∈ (e n).flows,
      h ∈ n.flows ∨ (withNode net key e).Enrolled h)
    (hsolvent : ∀ n ∈ net.nodes, n.key = key → ∀ p, (e n).probe? = some p → p.Solvent) :
    (withNode net key e).Books R := by
  refine hB.of_map (e := fun n ↦ if n.key == key then e n else n) rfl rfl rfl (fun n ↦ ?_)
    (fun n hn ↦ ?_) (fun n hn ↦ ?_) fun n hn ↦ ?_
  all_goals split
  · exact hkey n
  · rfl
  · exact hkeep n hn (beq_iff_eq.1 ‹_›)
  · exact fun _ hh ↦ .inl hh
  · exact hlisted n hn (beq_iff_eq.1 ‹_›)
  · exact fun _ hh ↦ .inl hh
  · exact hsolvent n hn (beq_iff_eq.1 ‹_›)
  · exact hB.solvent n hn

/-- The probe at a node is another one. -/
theorem setProbe {p : Probe} (hB : net.Books R) (hp : p.Solvent) :
    (Engine.withNode net key fun n ↦ { n with role := .probe p }).Books R := by
  refine hB.withNode (fun _ ↦ rfl) (fun _ _ _ _ ↦ .inl) (fun _ _ _ _ ↦ .inl) fun n _ _ q hq ↦ ?_
  obtain rfl := Option.some.inj hq
  exact hp

/-- A live flow is enrolled if it is put on the list of its node. -/
theorem enrolled_enlist (hB : net.Books R) (hn : n ∈ net.nodes) (hkey : n.key = key)
    (hf : F.find? h = some f) (hnode : f.node = key) :
    Enrolled (Engine.withNode { net with flows := F } key fun n ↦
      { n with flows := n.flows ++ [h] }) h := by
  have hlt : f.node < net.nextKey := by
    rw [hnode, ← hkey]
    exact hB.fresh n hn
  refine .inr ⟨f, hf, hlt, fun m hm hmkey ↦ ?_⟩
  obtain ⟨m', -, rfl⟩ := List.mem_map.1 hm
  by_cases hm' : (m'.key == key) = true
  · rw [if_pos hm']
    exact List.mem_append_right _ (List.mem_singleton_self h)
  · rw [if_neg hm'] at hmkey
    exact absurd (beq_iff_eq.2 (hmkey.trans hnode)) hm'

/-- **A flow is listed.** -/
theorem enlist (hB : net.Books R) (hn : n ∈ net.nodes) (hkey : n.key = key)
    (hf : net.flows.find? h = some f) (hnode : f.node = key) :
    (Engine.withNode net key fun n ↦ { n with flows := n.flows ++ [h] }).Books (R ∪ {h}) := by
  have hh := hB.enrolled_enlist hn hkey hf hnode
  have hlisted : (Engine.withNode net key fun n ↦ { n with flows := n.flows ++ [h] }).Books R := by
    refine hB.withNode (fun _ ↦ rfl) (fun _ _ _ _ hg ↦ .inl (List.mem_append_left _ hg))
      (fun m _ _ g hg ↦ ?_) fun m hm _ ↦ hB.solvent m hm
    rcases List.mem_append.1 hg with hg | hg
    · exact .inl hg
    · exact .inr (List.mem_singleton.1 hg ▸ hh)
  refine hlisted.enrol ?_
  rintro g rfl
  exact hh

/-- A flow that is gone is taken off a list. -/
theorem delist (hB : net.Books R) (hh : net.flows.find? h = none) :
    (Engine.withNode net key fun n ↦ { n with flows := n.flows.filter (· ≠ h) }).Books R := by
  refine hB.withNode (fun _ ↦ rfl) (fun n hn _ g hg ↦ ?_)
    (fun _ _ _ g hg ↦ .inl (List.mem_filter.1 hg).1) fun n hn _ ↦ hB.solvent n hn
  by_cases hgh : g = h
  · subst hgh
    refine .inr ((hB.listed n hn g hg).resolve_right ?_)
    rintro ⟨f, hf, -⟩
    exact absurd (hh.symm.trans hf) (by simp)
  · exact .inl (List.mem_filter.2 ⟨hg, decide_eq_true hgh⟩)

/-- A node is new and lists nothing. -/
theorem addNode (hB : net.Books R) (hkey : n.key = net.nextKey) (hflows : n.flows = [])
    (hsolvent : ∀ p, n.probe? = some p → p.Solvent) :
    (net.enrol n).Books R := by
  have hmem : ∀ m ∈ net.nodes ++ [n], m ∈ net.nodes ∨ m = n := fun m hm ↦
    (List.mem_append.1 hm).imp_right List.mem_singleton.1
  have he : ∀ h, net.Enrolled h → (net.enrol n).Enrolled h := by
    refine fun h hh ↦ hh.imp id (fun f hf ↦ .inr ⟨f, hf, rfl⟩) (Nat.le_succ _) fun m hm hlt ↦ ?_
    rcases hmem m hm with hm | rfl
    · exact .inr ⟨m, hm, rfl, id⟩
    · exact absurd hlt (by rw [hkey]; exact Nat.lt_irrefl _)
  refine hB.withNodes rfl he (fun m hm ↦ ?_) (fun m hm h hh ↦ ?_) fun m hm p hp ↦ ?_
  · rcases hmem m hm with hm | rfl
    · exact (hB.fresh m hm).trans (Nat.lt_succ_self _)
    · exact hkey ▸ Nat.lt_succ_self _
  · rcases hmem m hm with hm | rfl
    · exact he h (hB.listed m hm h hh)
    · rw [hflows] at hh
      cases hh
  · rcases hmem m hm with hm | rfl
    · exact hB.solvent m hm p hp
    · exact hsolvent p hp

/-- A node is gone. -/
theorem eraseNode (hB : net.Books R) (n : Node) : (net.strike n).Books R := by
  have hmem : ∀ m ∈ (net.strike n).nodes, m ∈ net.nodes := fun m hm ↦ (List.mem_filter.1 hm).1
  have he : ∀ h, net.Enrolled h → (net.strike n).Enrolled h :=
    fun h hh ↦ hh.imp id (fun f hf ↦ .inr ⟨f, hf, rfl⟩) le_rfl fun m hm _ ↦
      .inr ⟨m, hmem m hm, rfl, id⟩
  exact hB.withNodes rfl he (fun m hm ↦ hB.fresh m (hmem m hm))
    (fun m hm h hh ↦ he h (hB.listed m (hmem m hm) h hh)) fun m hm ↦ hB.solvent m (hmem m hm)

/-- **The root of a source** has headers to send, and is listed as soon as it is there. -/
theorem addRoot (hB : net.Books R) (hn : n ∈ net.nodes) (hkey : n.key = key)
    (hnode : f.node = key) (hchildren : f.children = []) :
    (Engine.withNode { net with flows := net.flows.insert f } key fun n ↦
      { n with flows := n.flows ++ [net.flows.nextHandle] }).Books R := by
  -- on the books it is listed before it gets its headers
  have hblank : (Engine.withNode
      { net with flows := net.flows.insert { f with processed := none } } key fun n ↦
        { n with flows := n.flows ++ [net.flows.nextHandle] }).Books (R ∪ {net.flows.nextHandle}) :=
    (hB.insert (f := { f with processed := none }) hchildren rfl).enlist hn hkey
      (Arena.find?_insert_self hB.valid) hnode
  refine (hblank.withFlows (F := net.flows.insert f) (Arena.valid_insert hB.valid) (fun g hg ↦
    hg.withFlows (fun hp ↦ ?_) fun f' hf' ↦ .inr ?_) fun g f' hf' ↦ ?_).mono Set.subset_union_left
  · change (net.flows.insert _).Past g at hp
    rwa [Arena.past_iff, Arena.ages_insert] at hp ⊢
  · change (net.flows.insert _).find? g = some f' at hf'
    rw [Arena.find?_insert hB.valid] at hf' ⊢
    split at hf'
    · obtain rfl := Option.some.inj hf'
      exact ⟨f, if_pos ‹_›, rfl⟩
    · exact ⟨f', by rwa [if_neg ‹_›], rfl⟩
  · by_cases hg : g = net.flows.nextHandle
    · subst hg
      obtain rfl := Option.some.inj ((Arena.find?_insert_self hB.valid).symm.trans hf')
      exact ⟨by simp [hchildren], fun _ ↦ hblank.enrolled _ (.inr rfl)⟩
    · rw [Arena.find?_insert_of_ne hB.valid hg] at hf'
      have hsame :=
        (Arena.find?_insert_of_ne (v := { f with processed := none }) hB.valid hg).trans hf'
      exact ⟨hblank.children g f' hsame, hblank.processed g f' hsame⟩

end Books

end Network

end HeaderFlow
