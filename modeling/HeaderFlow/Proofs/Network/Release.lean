import HeaderFlow.Proofs.Network.Priority

/-!
# Rules that give up their influences

A rule that is removed first forgets its influences, and then each of them is erased together with
its entry at the other end. While this goes on the influences of the rule are listed at one end
only; the rule has no flows any more, so nobody is misled by them.

The two kinds of influences differ in what is owed afterwards:

* where the rule **lost**, no flow notices (`upheld_forM_dropLost`): what was taken was taken from
  the rule itself;
* where it **won**, the flows of the other rule are stale (`upheld_dropWon`), and `release`
  refreshes them one influence after the other.

`upheld_surrender` puts the two loops together, and `upheld_release` says that nothing is owed for
the influences at the end and that the node lists none. Each of the loops is followed by its step:
one influence goes, which is a `Layout.unrank` whichever end still lists it (`layout_eraseWon`,
`layout_eraseLost`, `layout_eraseDead`).
-/

namespace HeaderFlow

variable {L : Layout} {net net' : Network} {F F' : Arena Flow} {D C : Set Debt} {X Y : Set Handle}
  {E : NodeKey → NodeKey → Link → Prop} {R T : NodeKey → NodeKey → Prop} {k : Handle}
  {i : Influence} {n m : Core} {key : NodeKey} {I : Arena Influence}
  {lost won : NodeKey → List Handle} {port : Port} {x : Nat → Bool}

namespace Engine

/-- **When an influence goes, the flows are stale to which it applied.** -/
theorem upheld_unrank (hU : Upheld net D X E R) (hlayout : net'.layout = net.layout.unrank k)
    (hflows : net'.flows = net.flows) (hroster : net'.roster = net.roster)
    (hR : ∀ i, net.influences.find? k = some i → R i.influencer i.influenced) (hD : D ⊆ C)
    (howed : ∀ i, net.influences.find? k = some i → k ∈ net.layout.lost i.influenced →
      ∀ e ∈ dues net.layout net.flows i.influenced i.ports none, e ∈ C) :
    Upheld net' C X E R := by
  refine hU.reorder (hlayout.trans rfl) hflows hroster hD (fun h f x hf ht ↦ ?_)
    (fun h f x hf ht ↦ ?_) (hlayout ▸ hU.ordered.unrank) (hlayout ▸ hU.ranked.unrank hU.ordered hR)
  · rw [hlayout]
    refine (ht.unrank hU.ordered).imp_right ?_
    rintro ⟨hk, i, hi, hnode, hport⟩
    exact howed i hi (hnode ▸ hk) _ ⟨h, f, hf, hnode, hport, rfl⟩
  · rw [hlayout] at ht
    exact .inl ht.of_unrank

/-- Erasing an influence answers what it was, if it was there at all. -/
theorem Leads.removeInfluence {o : Option Influence} (hl : Leads (removeInfluence k) net o net') :
    o = net.influences.find? k ∧ net' = { net with influences := net.influences.erase k } := by
  simpa only [Engine.removeInfluence, leads_network_bind, leads_update_bind, leads_pure] using hl

/-- An influence that is not there is listed nowhere. -/
theorem unlisted_of_dead (ho : L.Ordered X) (hk : L.influences.find? k = none) : L.Unlisted k := by
  refine fun key ↦ ⟨fun hmem ↦ ?_, fun hmem ↦ ?_⟩
  · obtain ⟨i, hi, -⟩ := ho.lost key k hmem
    exact absurd (hk.symm.trans hi) (by simp)
  · obtain ⟨i, hi, -⟩ := ho.won key k hmem
    exact absurd (hk.symm.trans hi) (by simp)

theorem filter_of_not_mem {l : List Handle} (hk : k ∉ l) : l.filter (· ≠ k) = l := by
  refine List.filter_eq_self.2 fun k' hk' ↦ ?_
  simp only [ne_eq, decide_eq_true_eq]
  rintro rfl
  exact hk hk'

/-- The layout after an influence has gone that only its winner lists. -/
theorem layout_eraseWon {n : Node} (ho : net.layout.Ordered X)
    (hi : net.influences.find? k = some i) (hn : net.nodeAt? i.influencer = some n)
    (hk : ∀ key, k ∉ net.layout.lost key) :
    (withNode { net with influences := net.influences.erase k } i.influencer (Node.mapRule fun r ↦
      { r with effectOn := r.effectOn.filter (· ≠ k) })).layout = net.layout.unrank k := by
  have hn' : Layout.core? { net with influences := net.influences.erase k }.layout i.influencer =
      some n.core := Layout.core?_of_nodeAt? hn
  refine (layout_mapRule id (fun l ↦ l.filter (· ≠ k)) hn' (fun _ ↦ ⟨rfl, rfl⟩) fun _ ↦
    rfl).trans ?_
  have hwon : ∀ key, (if key = i.influencer then (net.layout.won key).filter (· ≠ k)
      else net.layout.won key) = (net.layout.won key).filter (· ≠ k) := by
    intro key
    refine ite_filter fun hmem ↦ ?_
    obtain ⟨i', hi', hinfluencer, -⟩ := ho.won key k hmem
    exact Option.some.inj (hi.symm.trans hi') ▸ hinfluencer.symm
  rw [Layout.unrank, ← funext hwon, funext fun key ↦ filter_of_not_mem (hk key)]
  simp only [id_eq, ite_self]
  rfl

/-- The layout after an influence has gone that only its loser lists. -/
theorem layout_eraseLost {n : Node} (ho : net.layout.Ordered X)
    (hi : net.influences.find? k = some i) (hn : net.nodeAt? i.influenced = some n)
    (hk : ∀ key, k ∉ net.layout.won key) :
    (withNode { net with influences := net.influences.erase k } i.influenced (Node.mapRule fun r ↦
      { r with influencedBy := r.influencedBy.filter (· ≠ k) })).layout = net.layout.unrank k := by
  have hn' : Layout.core? { net with influences := net.influences.erase k }.layout i.influenced =
      some n.core := Layout.core?_of_nodeAt? hn
  refine (layout_mapRule (fun l ↦ l.filter (· ≠ k)) id hn' (fun _ ↦ ⟨rfl, rfl⟩) fun _ ↦
    rfl).trans ?_
  have hlost : ∀ key, (if key = i.influenced then (net.layout.lost key).filter (· ≠ k)
      else net.layout.lost key) = (net.layout.lost key).filter (· ≠ k) := by
    intro key
    refine ite_filter fun hmem ↦ ?_
    obtain ⟨i', hi', hinfluenced, -⟩ := ho.lost key k hmem
    exact Option.some.inj (hi.symm.trans hi') ▸ hinfluenced.symm
  rw [Layout.unrank, ← funext hlost, funext fun key ↦ filter_of_not_mem (hk key)]
  simp only [id_eq, ite_self]
  rfl

/-- An influence that is not there may be erased. -/
theorem layout_eraseDead (ho : net.layout.Ordered X) (hi : net.influences.find? k = none) :
    Network.layout { net with influences := net.influences.erase k } = net.layout.unrank k := by
  have hk := unlisted_of_dead ho hi
  rw [Layout.unrank, funext fun key ↦ filter_of_not_mem (hk key).1,
    funext fun key ↦ filter_of_not_mem (hk key).2]
  rfl

/-- **Removing an influence in which a rule loses that has forgotten it.** -/
theorem Leads.dropLost (hl : Leads (dropLost k) net () net') (ho : net.layout.Ordered X)
    (hk : ∀ key, k ∉ net.layout.lost key) :
    net'.layout = net.layout.unrank k ∧ net'.flows = net.flows ∧
      net'.roster = net.roster := by
  obtain ⟨o, mid, hremove, hl⟩ := Leads.bind hl
  obtain ⟨rfl, rfl⟩ := hremove.removeInfluence
  cases hi : net.influences.find? k with
  | none =>
    simp only [hi] at hl
    obtain ⟨-, rfl⟩ := leads_pure.1 hl
    exact ⟨layout_eraseDead ho hi, rfl, rfl⟩
  | some i =>
    simp only [hi, leads_node_bind, leads_updateNode] at hl
    obtain ⟨n, hn, rfl⟩ := hl
    obtain ⟨-, hkey⟩ := nodeAt?_eq_some hn
    rw [hkey]
    exact ⟨layout_eraseWon ho hi hn hk, rfl, roster_mapRule⟩

/-- **Removing the influences in which a rule wins that has forgotten them**; what they took has to
be given back. -/
theorem upheld_dropWon {ks : List Handle} {won : List Influence}
    (hl : Leads (dropWon ks) net won net') (hU : Upheld net D X E R)
    (hk : ∀ k ∈ ks, ∀ key, k ∉ net.layout.won key)
    (hR : ∀ k ∈ ks, ∀ i, net.influences.find? k = some i → R i.influencer i.influenced) :
    Upheld net'
      (D ∪ {e | ∃ i ∈ won, e ∈ dues net.layout net.flows i.influenced i.ports none}) X E R ∧
      net'.flows = net.flows ∧ net.layout.Loses net'.layout ∧ ∀ k ∈ ks, net'.layout.Unlisted k := by
  induction ks generalizing net won D with
  | nil =>
    obtain ⟨rfl, rfl⟩ := leads_pure.1 hl
    exact ⟨{ hU with inv := hU.inv.mono fun _ ↦ .inl }, rfl, .refl _, by simp⟩
  | cons k ks ih =>
    -- what is left to do once `k` is gone
    have hrest : ∀ {mid more C}, Upheld mid C X E R → mid.layout = net.layout.unrank k →
        mid.flows = net.flows → Leads (dropWon ks) mid more net' →
        Upheld net' (C ∪ {e | ∃ i ∈ more, e ∈ dues net.layout net.flows i.influenced i.ports none})
          X E R ∧ net'.flows = net.flows ∧ net.layout.Loses net'.layout ∧
          ∀ k' ∈ k :: ks, net'.layout.Unlisted k' := by
      intro mid more C hUmid hlayout hflows hmore
      have hloses : net.layout.Loses mid.layout := hlayout ▸ .unrank _ k
      obtain ⟨hU', hflows', hloses', hunlisted⟩ := ih hmore hUmid
        (fun k' hk' key hmem ↦ hk k' (List.mem_cons_of_mem _ hk') key (hloses.won key k' hmem))
        fun k' hk' i hi ↦ hR k' (List.mem_cons_of_mem _ hk') i (hloses.there k' i hi)
      rw [hflows] at hU' hflows'
      refine ⟨hU', hflows', hloses.trans hloses', List.forall_mem_cons.2 ⟨?_, hunlisted⟩⟩
      exact hloses'.unlisted (hlayout ▸ Layout.unlisted_unrank _ k)
    obtain ⟨o, mid, hremove, hl⟩ := Leads.bind hl
    obtain ⟨rfl, rfl⟩ := hremove.removeInfluence
    cases hi : net.influences.find? k with
    | none =>
      simp only [hi] at hl
      have hlayout := layout_eraseDead hU.ordered hi
      exact hrest (upheld_unrank hU hlayout rfl rfl (by simp [hi]) (fun _ he ↦ he)
        (by simp [hi])) hlayout rfl hl
    | some i =>
      simp only [hi, leads_node_bind, leads_updateNode_bind] at hl
      obtain ⟨n, hn, hl⟩ := hl
      obtain ⟨-, hkey⟩ := nodeAt?_eq_some hn
      rw [hkey] at hl
      obtain ⟨more, mid, hmore, hl⟩ := hl.bind
      obtain ⟨rfl, rfl⟩ := leads_pure.1 hl
      have hlayout := layout_eraseLost hU.ordered hi hn (hk k List.mem_cons_self)
      have hUmid := upheld_unrank (C := D ∪ dues net.layout net.flows i.influenced i.ports none) hU
        hlayout rfl roster_mapRule (hR k List.mem_cons_self) (fun _ ↦ .inl) (by
          intro i' hi' _ e he
          obtain rfl := Option.some.inj (hi.symm.trans hi')
          exact .inr he)
      obtain ⟨hU', hothers⟩ := hrest hUmid hlayout rfl hmore
      refine ⟨{ hU' with inv := hU'.inv.mono ?_ }, hothers⟩
      rintro e ((he | he) | ⟨j, hj, he⟩)
      · exact .inl he
      · exact .inr ⟨i, List.mem_cons_self, he⟩
      · exact .inr ⟨j, List.mem_cons_of_mem _ hj, he⟩

/-- The influences that are answered were there. -/
theorem Leads.mem_dropWon {ks : List Handle} {given : List Influence}
    (hl : Leads (Engine.dropWon ks) net given net') :
    ∀ i ∈ given, ∃ k ∈ ks, net.influences.find? k = some i := by
  induction ks generalizing net given with
  | nil =>
    obtain ⟨rfl, -⟩ := leads_pure.1 hl
    simp
  | cons k ks ih =>
    -- what is gone by now was there before
    have hrest : ∀ {nodes : List Node} {more : List Influence}, Leads (Engine.dropWon ks)
        { net with nodes := nodes, influences := net.influences.erase k } more net' →
        ∀ i ∈ more, ∃ k' ∈ k :: ks, net.influences.find? k' = some i := by
      intro nodes more hmore i hi
      obtain ⟨j, hj, hji⟩ := ih hmore i hi
      exact ⟨j, List.mem_cons_of_mem _ hj, ((Arena.lacks_erase j i).1 hji).2⟩
    obtain ⟨o, mid, hremove, hl⟩ := Leads.bind hl
    obtain ⟨rfl, rfl⟩ := hremove.removeInfluence
    cases hi : net.influences.find? k with
    | none =>
      simp only [hi] at hl
      exact hrest hl
    | some i =>
      simp only [hi, leads_node_bind, leads_updateNode_bind] at hl
      obtain ⟨m, -, hl⟩ := hl
      obtain ⟨more, mid, hmore, hl⟩ := hl.bind
      obtain ⟨rfl, rfl⟩ := leads_pure.1 hl
      exact List.forall_mem_cons.2 ⟨⟨k, List.mem_cons_self, hi⟩, hrest hmore⟩

/-- Removing the influences in which a rule loses that has forgotten them; no flow notices. -/
theorem upheld_forM_dropLost {ks : List Handle} (hl : Leads (ks.forM dropLost) net () net')
    (hU : Upheld net D X E R) (hk : ∀ k ∈ ks, ∀ key, k ∉ net.layout.lost key)
    (hR : ∀ k ∈ ks, ∀ i, net.influences.find? k = some i → R i.influencer i.influenced) :
    Upheld net' D X E R ∧ net'.flows = net.flows ∧ net.layout.Loses net'.layout ∧
      ∀ k ∈ ks, net'.layout.Unlisted k := by
  suffices hrun : Upheld net' D X E R ∧ net'.flows = net.flows ∧ net.layout.Loses net'.layout ∧
      ∀ k ∈ ks, k ∈ [] ∨ net'.layout.Unlisted k from
    ⟨hrun.1, hrun.2.1, hrun.2.2.1, fun k hk ↦ (hrun.2.2.2 k hk).resolve_left List.not_mem_nil⟩
  refine hl.forM (I := fun rest mid ↦ Upheld mid D X E R ∧ mid.flows = net.flows ∧
    net.layout.Loses mid.layout ∧ ∀ k ∈ ks, k ∈ rest ∨ mid.layout.Unlisted k)
    ⟨hU, rfl, .refl _, fun _ ↦ .inl⟩ ?_
  rintro k rest mid mid' hmem ⟨hUmid, hflows, hloses, hgone⟩ hstep
  have hnot : ∀ key, k ∉ mid.layout.lost key := fun key hmem' ↦
    hk k hmem key (hloses.lost key k hmem')
  obtain ⟨hlayout, hflows', hroster⟩ := hstep.dropLost hUmid.ordered hnot
  have hloses' : mid.layout.Loses mid'.layout := hlayout ▸ .unrank _ k
  refine ⟨upheld_unrank hUmid hlayout hflows' hroster
    (fun i hi ↦ hR k hmem i (hloses.there k i hi)) (fun _ he ↦ he) (fun i _ hlost ↦
      absurd hlost (hnot _)), hflows'.trans hflows, hloses.trans hloses', fun k' hk' ↦ ?_⟩
  rcases hgone k' hk' with hk' | hk'
  · rcases List.mem_cons.1 hk' with rfl | hk'
    · exact .inr (hlayout ▸ Layout.unlisted_unrank _ k')
    · exact .inl hk'
  · exact .inr (hloses'.unlisted hk')

/-- **A rule without flows forgets its influences.** No flow notices; the other ends still list
them. -/
theorem upheld_forget {n : Node} (hn : net.nodeAt? key = some n) (hU : Upheld net D ∅ E R)
    (hR : ∀ m n, involving key m n → R m n)
    (hfree : ∀ h f, net.flows.find? h = some f → f.node ≠ key) :
    let net₁ := withNode net key (Node.mapRule fun r ↦
      { r with influencedBy := [], effectOn := [] })
    net₁.layout = net.layout.forget key ∧ Upheld net₁ D (net.layout.influencesOf key) E R := by
  intro net₁
  have hforget : net₁.layout = net.layout.forget key :=
    layout_mapRule (k := fun r ↦ { r with influencedBy := [], effectOn := [] })
      (fun _ ↦ []) (fun _ ↦ []) (Layout.core?_of_nodeAt? hn) (fun _ ↦ ⟨rfl, rfl⟩) fun _ ↦ rfl
  exact ⟨hforget, hU.reorder (C := D) (Y := net.layout.influencesOf key) (T := R)
    (hforget.trans rfl) rfl roster_mapRule (fun _ he ↦ he)
    (fun h f x hf ht ↦ .inl (hforget ▸ (Layout.taken_forget (hfree h f hf)).2 ht))
    (fun h f x hf ht ↦ .inl ((Layout.taken_forget (hfree h f hf)).1 (hforget ▸ ht)))
    (hforget ▸ hU.ordered.forget) (hforget ▸ hU.ranked.forget fun m ↦ hR _ _ (.inr rfl))⟩

/-- **A rule without flows gives up its influences**; what the ones took that it won has to be given
back. -/
theorem upheld_surrender {n : Node} {r : Rule} {net₂ net₃ : Network} {given : List Influence}
    (hn : net.nodeAt? key = some n) (hr : n.rule? = some r)
    (hlosses : Leads (r.influencedBy.forM dropLost) (withNode net key (Node.mapRule fun r ↦
      { r with influencedBy := [], effectOn := [] })) () net₂)
    (hwins : Leads (dropWon r.effectOn) net₂ given net₃) (hU : Upheld net D ∅ E R)
    (hR : ∀ m n, involving key m n → R m n)
    (hfree : ∀ h f, net.flows.find? h = some f → f.node ≠ key) :
    Upheld net₃
      (D ∪ {e | ∃ i ∈ given, e ∈ dues net₃.layout net₃.flows i.influenced i.ports none}) ∅ E R ∧
      net₃.flows = net.flows ∧ net.layout.Loses net₃.layout ∧ net₃.layout.lost key = [] ∧
      net₃.layout.won key = [] ∧ ∀ i ∈ given, ∃ m, net₃.layout.core? i.influenced = some m ∧
        m.IsRule := by
  obtain ⟨hlost, hwon⟩ := lost_won_of_rule hn hr
  obtain ⟨hforget, hU₁⟩ := upheld_forget hn hU hR hfree
  have hloses₁ := hforget ▸ Layout.Loses.forget net.layout key
  obtain ⟨hU₂, hflows₂, hloses₂, hgone₂⟩ := upheld_forM_dropLost hlosses hU₁ (by
    intro k hk key'
    rw [hforget]
    exact hU.ordered.not_mem_lost_forget (hlost ▸ hk) key') (by
    intro k hk i hi
    obtain ⟨i', hi', hkey, -⟩ := hU.ordered.lost key k (hlost ▸ hk)
    obtain rfl := Option.some.inj (hi.symm.trans hi')
    exact hR _ _ (.inr hkey))
  obtain ⟨hU₃, hflows₃, hloses₃, hgone₃⟩ := upheld_dropWon hwins hU₂ (by
    intro k hk key' hk'
    have hk' := hloses₂.won key' k hk'
    rw [hforget] at hk'
    exact hU.ordered.not_mem_won_forget (hwon ▸ hk) key' hk') (by
    intro k hk i hi
    have hi := hloses₂.there k i hi
    obtain ⟨i', hi', hkey, -⟩ := hU.ordered.won key k (hwon ▸ hk)
    obtain rfl := Option.some.inj (hi.symm.trans hi')
    exact hR _ _ (.inl hkey))
  have hordered : net₃.layout.Ordered ∅ := by
    refine hU₃.ordered.strengthen ?_
    rintro k (hk | hk)
    · exact hloses₃.unlisted (hgone₂ k (hlost ▸ hk))
    · exact hgone₃ k (hwon ▸ hk)
  refine ⟨⟨hU₃.inv.mono (hflows₃ ▸ fun _ he ↦ he), hordered, hU₃.wired, hU₃.ranked⟩,
    hflows₃.trans hflows₂, (hloses₁.trans hloses₂).trans hloses₃, ?_, ?_, fun i hi ↦ ?_⟩
  · refine List.eq_nil_iff_forall_not_mem.2 fun k hk ↦ ?_
    have hk := (hloses₂.trans hloses₃).lost key k hk
    exact (Layout.mem_lost_forget.1 (hforget ▸ hk)).2 rfl
  · refine List.eq_nil_iff_forall_not_mem.2 fun k hk ↦ ?_
    have hk := (hloses₂.trans hloses₃).won key k hk
    exact (Layout.mem_won_forget.1 (hforget ▸ hk)).2 rfl
  · obtain ⟨k, hk, hki⟩ := hwins.mem_dropWon i hi
    obtain ⟨i', hi', -, hranks⟩ := hU.ordered.won key k (hwon ▸ hk)
    obtain rfl := Option.some.inj ((hloses₂.there k i hki).symm.trans hi')
    obtain ⟨m, m', hranks⟩ := hranks (by simp)
    obtain ⟨table, -, place, -, w, -, hkind, -⟩ := hranks.order
    obtain ⟨I, lost, won, hsame⟩ := ((hloses₁.trans hloses₂).trans hloses₃).same
    exact ⟨m', hsame ▸ hranks.influenced, table, place, w, hkind⟩

/-- **A rule without flows that has its influences removed**: nothing is owed for them
afterwards. -/
theorem upheld_release {K : NodeKey → Prop} (hl : Leads (release key) net () net')
    (hU : Upheld net D ∅ E R) (hR : ∀ m n, involving key m n → R m n)
    (hfree : ∀ h f, net.flows.find? h = some f → f.node ≠ key) :
    Upheld net' D ∅ E R ∧ net.layout.Loses net'.layout ∧ net'.layout.lost key = [] ∧
      net'.layout.won key = [] ∧ SameRoots K net.flows net'.flows := by
  rw [release, leads_node_bind] at hl
  obtain ⟨n, hn, hl⟩ := hl
  cases hr : n.rule? with
  | none =>
    simp only [hr] at hl
    obtain ⟨-, rfl⟩ := leads_pure.1 hl
    obtain ⟨hlost, hwon⟩ := lost_won_of_plain hn hr
    exact ⟨hU, .refl _, hlost, hwon, .refl _ _⟩
  | some r =>
    simp only [hr, leads_updateNode_bind] at hl
    obtain ⟨⟨⟩, net₂, hlosses, hl⟩ := hl.bind
    obtain ⟨given, net₃, hwins, hl⟩ := hl.bind
    obtain ⟨hU₃, hflows, hloses, hlost, hwon, hrules⟩ :=
      upheld_surrender hn hr hlosses hwins hU hR hfree
    obtain ⟨hI', hframe⟩ := inv_forM_pay (D := D) (d := 1)
      (fun F i ↦ dues net₃.layout F i.influenced i.ports none) hl hU₃.inv dues_stable (by
        intro i hi mid mid' D hframe hstep hI
        exact inv_refreshFlows hstep (hframe.layout ▸ hI) (fun _ ↦ hframe.layout ▸ hrules i hi)
          (by simp))
    exact ⟨hU₃.propagate hI' hframe.layout, hframe.layout ▸ hloses, hframe.layout ▸ hlost,
      hframe.layout ▸ hwon, (SameRoots.of_eq hflows).trans hframe.sameRoots⟩

end Engine

end HeaderFlow


