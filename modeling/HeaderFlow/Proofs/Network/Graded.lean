import HeaderFlow.Proofs.Network.Mutation

/-!
# Influences are exactly the overlaps of rules

`Layout.Ordered` says of an influence that is listed what it must be like. `Layout.Graded` says what
is missing for the influences to be determined: **every influence that is there is listed at both
rules**, once, it has the pattern and the ports that the two have in common, of which there are
some, and no two influences are about the same rules.

A rule that goes forgets its influences first and removes them one by one afterwards. In the
meantime they are excepted here as they are in `Layout.Ordered`, and in the end they are gone
(`Layout.Graded.strengthen`).

## How it is kept

The plan is that of `Layout.Exact` for pipes. Each way in which a layout changes keeps it up, and a
new influence has the condition that there is none for its two rules yet (`Graded.rank`). A rule
that is related to others has no influences at first, and those created for it are about different
rules (`nodup_influencesWith`), so the loop that stores them keeps the condition for those to come
(`Builds`). A removal is a loop of losses (`Rid`).
-/

namespace HeaderFlow

variable {L L' : Layout} {net net' : Network} {X : Set Handle} {k k' : Handle} {i j : Influence}
  {n m : Core} {key : NodeKey}

/-- The two rules that an influence is about. -/
def Influence.rules (i : Influence) : NodeKey × NodeKey := (i.influencer, i.influenced)

namespace Layout

/-- The influence has what the two rules have in common, which is something. -/
def Gauged (i : Influence) (m n : Core) : Prop :=
  (∃ port, port ∈ i.ports.toList) ∧
    ∃ p q, m.accepts = some p ∧ n.accepts = some q ∧ p.intersect q = .ok (some i.common)

/-- Influences are recorded where they should be and nowhere else, except for those that are about
to go, and there are no two for the same rules. -/
structure Graded (L : Layout) (X : Set Handle) : Prop extends L.Ordered X where
  lostOnce : ∀ key, (L.lost key).Nodup
  wonOnce : ∀ key, (L.won key).Nodup
  ranks : ∀ k i, L.influences.find? k = some i → k ∉ X → ∃ m n, L.Ranks k i m n ∧ Gauged i m n
  unique : ∀ k k' i i', L.influences.find? k = some i → L.influences.find? k' = some i' →
    i.rules = i'.rules → k = k'

/-- An influence that has not been stored yet is listed nowhere. -/
theorem Ordered.fresh (ho : L.Ordered X) :
    L.influences.nextHandle ∉ L.lost key ∧ L.influences.nextHandle ∉ L.won key :=
  Engine.unlisted_of_dead ho (Arena.find?_nextHandle ho.influences) key

/-- **A new influence**, where there is none yet. -/
theorem Graded.rank (hG : L.Graded X) (hi : L.Outranks i m n) (hgauged : Gauged i m n)
    (hnew : ∀ k j, L.influences.find? k = some j → j.rules ≠ i.rules) : (L.rank i).Graded X where
  toOrdered := hG.toOrdered.rank hi
  lostOnce key := by
    simp only [Layout.rank, Layout.reorder]
    split
    · exact List.concat_eq_append ▸ (hG.lostOnce key).concat hG.fresh.1
    · exact hG.lostOnce key
  wonOnce key := by
    simp only [Layout.rank, Layout.reorder]
    split
    · exact List.concat_eq_append ▸ (hG.wonOnce key).concat hG.fresh.2
    · exact hG.wonOnce key
  ranks k j hj hX := by
    rw [Layout.rank, Layout.reorder, Arena.find?_insert hG.influences] at hj
    split at hj
    · obtain rfl := Option.some.inj hj
      exact ⟨m, n, ‹k = _› ▸ hi.rank, hgauged⟩
    · obtain ⟨m', n', hr, hg⟩ := hG.ranks k j hj hX
      exact ⟨m', n', hr.rank, hg⟩
  unique k k' j j' hj hj' hrules := by
    rw [Layout.rank, Layout.reorder, Arena.find?_insert hG.influences] at hj hj'
    split at hj
    · split at hj'
      · exact ‹k = _›.trans ‹k' = _›.symm
      · obtain rfl := Option.some.inj hj
        exact absurd hrules.symm (hnew k' j' hj')
    · split at hj'
      · obtain rfl := Option.some.inj hj'
        exact absurd hrules (hnew k j hj)
      · exact hG.unique k k' j j' hj hj' hrules

/-- An influence that is left is another than the one that went. -/
theorem find?_of_unrank (hj : (L.unrank k).influences.find? k' = some j) :
    k' ≠ k ∧ L.influences.find? k' = some j := by
  rw [unrank, reorder, Arena.find?_erase] at hj
  split at hj
  · exact absurd hj (by simp)
  · exact ⟨‹_›, hj⟩

/-- **An influence that goes** takes its entries at both rules along. -/
theorem Graded.unrank (hG : L.Graded X) : (L.unrank k).Graded X where
  toOrdered := hG.toOrdered.unrank
  lostOnce key := (hG.lostOnce key).filter _
  wonOnce key := (hG.wonOnce key).filter _
  ranks k' j hj hX := by
    obtain ⟨hne, hj⟩ := find?_of_unrank hj
    obtain ⟨m, n, hr, hg⟩ := hG.ranks k' j hj hX
    exact ⟨m, n, hr.unrank hne, hg⟩
  unique k₁ k₂ j j' hj hj' hrules :=
    hG.unique k₁ k₂ j j' (find?_of_unrank hj).2 (find?_of_unrank hj').2 hrules

/-- **A rule that forgets its influences** makes exceptions of them. -/
theorem Graded.forget (hG : L.Graded ∅) : (L.forget key).Graded (L.influencesOf key) where
  toOrdered := hG.toOrdered.forget
  lostOnce key' := by
    simp only [Layout.forget, Layout.reorder]
    split
    · exact List.nodup_nil
    · exact hG.lostOnce key'
  wonOnce key' := by
    simp only [Layout.forget, Layout.reorder]
    split
    · exact List.nodup_nil
    · exact hG.wonOnce key'
  ranks k j hj hX := by
    obtain ⟨m, n, hr, hg⟩ := hG.ranks k j hj (Set.notMem_empty k)
    exact ⟨m, n, hr.forget hX, hg⟩
  unique := hG.unique

/-- Influences that are gone need not be excepted. -/
theorem Graded.strengthen (hG : L.Graded X) (hX : ∀ k ∈ X, L.influences.find? k = none) :
    L.Graded ∅ where
  toOrdered := hG.toOrdered.strengthen fun k hk ↦ Engine.unlisted_of_dead hG.toOrdered (hX k hk)
  lostOnce := hG.lostOnce
  wonOnce := hG.wonOnce
  ranks k i hi _ := hG.ranks k i hi fun hk ↦ absurd ((hX k hk).symm.trans hi) (by simp)
  unique := hG.unique

/-- A new node lists no influences. -/
theorem Graded.grow {c : Node} (hG : L.Graded X) (hadmits : L.registry.Admits L.cores c.core) :
    (L.grow c).Graded X where
  toOrdered := hG.toOrdered.grow hadmits
  lostOnce := hG.lostOnce
  wonOnce := hG.wonOnce
  ranks k i hi hX := by
    obtain ⟨m, n, hr, hg⟩ := hG.ranks k i hi hX
    exact ⟨m, n, hr.grow, hg⟩
  unique := hG.unique

/-- A node without influences may go. -/
theorem Graded.shrink {c : Node} (hG : L.Graded X) (hi : L.Isolated c.key) :
    (L.shrink c).Graded X where
  toOrdered := hG.toOrdered.shrink hi
  lostOnce := hG.lostOnce
  wonOnce := hG.wonOnce
  ranks k i hi' hX := by
    obtain ⟨m, n, hr, hg⟩ := hG.ranks k i hi' hX
    exact ⟨m, n, hr.shrink hi, hg⟩
  unique := hG.unique

/-- Influences do not depend on pipes and links. -/
theorem Graded.samePlan (hG : L.Graded X) (hcores : L'.cores = L.cores)
    (hinfluences : L'.influences = L.influences) (hlost : L'.lost = L.lost)
    (hwon : L'.won = L.won) : L'.Graded X where
  toOrdered := hG.toOrdered.congr hcores hinfluences hlost hwon
  lostOnce := hlost ▸ hG.lostOnce
  wonOnce := hwon ▸ hG.wonOnce
  ranks k i hi hX := by
    obtain ⟨m, n, hr, hg⟩ := hG.ranks k i (hinfluences ▸ hi) hX
    exact ⟨m, n, hr.congr hcores hlost hwon, hg⟩
  unique := hinfluences ▸ hG.unique

/-- What two rules have in common is widened as they are. -/
theorem Gauged.enlarge {b : Nat} (hg : Gauged i m n) :
    Gauged (i.enlarge b) (m.enlarge b) (n.enlarge b) := by
  obtain ⟨hport, p, q, hp, hq, hcommon⟩ := hg
  exact ⟨hport, _, _, Core.accepts_enlarge hp, Core.accepts_enlarge hq,
    Pattern.intersect_enlarge hcommon⟩

theorem Graded.enlarge {b : Nat} (hG : L.Graded X) : (L.enlarge b).Graded X where
  toOrdered := hG.toOrdered.enlarge
  lostOnce := hG.lostOnce
  wonOnce := hG.wonOnce
  ranks k i' hi' hX := by
    rw [Layout.enlarge, Arena.find?_map, Option.map_eq_some_iff] at hi'
    obtain ⟨i, hi, rfl⟩ := hi'
    obtain ⟨m, n, hr, hg⟩ := hG.ranks k i hi hX
    exact ⟨_, _, hr.enlarge, hg.enlarge⟩
  unique k k' i' j' hi' hj' hrules := by
    rw [Layout.enlarge, Arena.find?_map, Option.map_eq_some_iff] at hi' hj'
    obtain ⟨i, hi, rfl⟩ := hi'
    obtain ⟨j, hj, rfl⟩ := hj'
    exact hG.unique k k' i j hi hj hrules

end Layout

/-! ### Which influences are created -/

namespace Network

variable {n : Node} {index : UInt32} {p : Pattern} {l : List (UInt32 × Node)}
  {created : List Influence}

/-- What is shared is an intersection, and there is a port at which it is. -/
theorem intersect_of_shared {ports : PortSet} {m : Node} {c : Pattern}
    (hc : shared p ports m = .ok (some c)) :
    (∃ port, port ∈ ports.toList) ∧ ∃ q, m.accepts = some q ∧ p.intersect q = .ok (some c) := by
  rw [shared] at hc
  split at hc
  · exact absurd (Except.ok.inj hc) (by simp)
  · rename_i hempty
    refine ⟨by simpa [PortSet.isEmpty_iff] using hempty, ?_⟩
    cases hq : m.accepts with
    | none =>
      simp only [hq] at hc
      exact absurd (Except.ok.inj hc) (by simp)
    | some q =>
      simp only [hq] at hc
      exact ⟨q, rfl, hc⟩

/-- Of two rules, the one that is not at the key. -/
def otherRule (key : NodeKey) (rules : NodeKey × NodeKey) : NodeKey :=
  if rules.1 = key then rules.2 else rules.1

/-- The influences that are created are about the other rules, in order. -/
theorem sublist_otherRule (hc : influencesWith n index p l = .ok created)
    (hne : ∀ e ∈ l, e.2.key ≠ n.key) :
    ((created.map Influence.rules).map (otherRule n.key)).Sublist (l.map fun e ↦ e.2.key) := by
  induction l generalizing created with
  | nil =>
    obtain rfl := Except.ok.inj hc
    simp
  | cons e l ih =>
    obtain ⟨i, m⟩ := e
    simp only [influencesWith, Checked.bind_eq_ok] at hc
    obtain ⟨o, -, more, hmore, hc⟩ := hc
    obtain rfl := Except.ok.inj hc
    have hmore := ih hmore fun e he ↦ hne e (List.mem_cons_of_mem _ he)
    have hm : m.key ≠ n.key := hne (i, m) List.mem_cons_self
    cases o with
    | none => exact hmore.cons _
    | some c =>
      have hother : otherRule n.key (Influence.rules (if i < index then
          ⟨m.key, n.key, c, m.inPorts.inter n.inPorts⟩
          else ⟨n.key, m.key, c, m.inPorts.inter n.inPorts⟩)) = m.key := by
        split <;> simp [otherRule, Influence.rules, hm]
      simpa [hother] using hmore

/-- **No two of the influences are about the same rules.** The other rule can be told from each, and
there is one for each other rule at most. -/
theorem nodup_influencesWith (hc : influencesWith n index p l = .ok created)
    (hl : (l.map fun e ↦ e.2.key).Nodup) (hne : ∀ e ∈ l, e.2.key ≠ n.key) :
    (created.map Influence.rules).Nodup :=
  List.Nodup.of_map (otherRule n.key) (hl.sublist (sublist_otherRule hc hne))

/-- **Every influence that is created has what its two rules have in common.** -/
theorem gauged_influencesWith {r : Rule} (ho : net.layout.Ordered X)
    (hnodup : (net.nodes.map Node.key).Nodup) (hn : n ∈ net.nodes) (hr : n.rule? = some r)
    (hp : n.accepts = some p)
    (hc : influencesWith n r.index p ((net.rulesAt r.table).filter fun (_, m) ↦ m.key ≠ n.key) =
      .ok created) :
    ∀ i ∈ created, (∃ s t, net.layout.Outranks i s t ∧ Layout.Gauged i s t) ∧
      (i.influencer = n.key ∨ i.influenced = n.key) := by
  intro i hi
  obtain ⟨⟨s, t, houtranks⟩, hinv⟩ := outranks_of_influencesWith ho hnodup hn hr hp hc hi
  refine ⟨⟨s, t, houtranks, ?_⟩, hinv⟩
  have hcore : ∀ m ∈ net.nodes, net.layout.core? m.key = some m.core := fun m ↦
    core?_core (map_key_cores net ▸ hnodup)
  obtain ⟨⟨place, m⟩, hother, c, hshared, rfl⟩ := ((of_influencesWith hc).2 i).1 hi
  obtain ⟨hm, -⟩ := mem_others.1 hother
  obtain ⟨hport, q, hq, hcommon⟩ := intersect_of_shared hshared
  by_cases hlt : place < r.index
  · rw [if_pos hlt] at houtranks ⊢
    obtain rfl := Option.some.inj ((hcore m hm).symm.trans houtranks.influencer)
    obtain rfl := Option.some.inj ((hcore n hn).symm.trans houtranks.influenced)
    refine ⟨hport, q, p, hq, hp, ?_⟩
    rw [Pattern.intersect_comm (Pattern.of_intersect_eq_ok hcommon).1.symm]
    exact hcommon
  · rw [if_neg hlt] at houtranks ⊢
    obtain rfl := Option.some.inj ((hcore n hn).symm.trans houtranks.influencer)
    obtain rfl := Option.some.inj ((hcore m hm).symm.trans houtranks.influenced)
    exact ⟨hport, p, q, hp, hq, hcommon⟩

end Network

/-! ### Relating and releasing a rule -/

/-- The networks differ at most in their influences. -/
structure Reranked (net net' : Network) : Prop where
  layout : ∃ I lost won, net'.layout = net.layout.reorder I lost won
  flows : net'.flows = net.flows
  roster : net'.roster = net.roster

namespace Reranked

theorem refl (net : Network) : Reranked net net := ⟨⟨_, _, _, rfl⟩, rfl, rfl⟩

theorem trans {net'' : Network} (h₁ : Reranked net net') (h₂ : Reranked net' net'') :
    Reranked net net'' := by
  obtain ⟨I, lost, won, hlayout⟩ := h₁.layout
  obtain ⟨I', lost', won', hlayout'⟩ := h₂.layout
  refine ⟨⟨I', lost', won', ?_⟩, h₂.flows.trans h₁.flows, h₂.roster.trans h₁.roster⟩
  rw [hlayout', hlayout]
  rfl

/-- The nodes are the same. -/
theorem cores (hr : Reranked net net') : net'.layout.cores = net.layout.cores := by
  obtain ⟨I, lost, won, hlayout⟩ := hr.layout
  rw [hlayout]
  rfl

end Reranked

namespace Engine

/-- Influences get built, and those in `rest` are to come: they are about different rules, and none
that is there is about those. -/
structure Builds (net : Network) (rest : List Influence) (mid : Network) : Prop where
  graded : mid.layout.Graded ∅
  reranked : Reranked net mid
  nodup : (rest.map Influence.rules).Nodup
  new : ∀ k j, mid.layout.influences.find? k = some j → j.rules ∉ rest.map Influence.rules

/-- One influence is stored: those to come are about other rules. -/
theorem Builds.step {mid mid' : Network} {i : Influence} {rest : List Influence} {m m' : Core}
    (hB : Builds net (i :: rest) mid) (hi : net.layout.Outranks i m m') (hg : Layout.Gauged i m m')
    (hl : Leads (Engine.addInfluence i) mid () mid') : Builds net rest mid' := by
  obtain ⟨hG, hreranked, hnodup, hnew⟩ := hB
  obtain ⟨hfresh, hnodup⟩ := List.nodup_cons.1 hnodup
  have hi' := hi.congr hreranked.cores
  obtain ⟨hlayout, hflows, hroster⟩ := hl.addInfluence hi'
  have hG' : (mid.layout.rank i).Graded ∅ := hG.rank hi' hg fun k j hj he ↦
    hnew k j hj (he ▸ List.mem_cons_self)
  refine ⟨hlayout ▸ hG', hreranked.trans ⟨⟨_, _, _, hlayout⟩, hflows, hroster⟩, hnodup,
    fun k j hj hmem ↦ ?_⟩
  rw [hlayout, Layout.rank, Layout.reorder, Arena.find?_insert hG.influences] at hj
  split at hj
  · obtain rfl := Option.some.inj hj
    exact hfresh hmem
  · exact hnew k j hj (List.mem_cons_of_mem _ hmem)

/-- **Relating a rule that has no influences yet.** -/
theorem Leads.graded_relate (hl : Leads (Engine.relate key) net () net') (hG : net.layout.Graded ∅)
    (hL : net.layout.WellFormed) (hlost : net.layout.lost key = [])
    (hwon : net.layout.won key = []) :
    net'.layout.Graded ∅ ∧ Reranked net net' := by
  rw [Engine.relate, leads_node_bind] at hl
  obtain ⟨n, hn, hl⟩ := hl
  obtain ⟨hmem, rfl⟩ := nodeAt?_eq_some hn
  cases hr : n.rule? with
  | none =>
    simp only [hr] at hl
    obtain ⟨-, rfl⟩ := leads_pure.1 hl
    exact ⟨hG, .refl _⟩
  | some r =>
    cases hp : n.accepts with
    | none =>
      simp only [hr, hp] at hl
      obtain ⟨-, rfl⟩ := leads_pure.1 hl
      exact ⟨hG, .refl _⟩
    | some p =>
      simp only [hr, hp, leads_check_bind, leads_ask_bind, Network.rulesOf_eq hL, Except.ok.injEq,
        exists_eq_left'] at hl
      obtain ⟨created, hcreated, _, -, hl⟩ := hl
      obtain ⟨⟨⟩, mid, hloop, hreport⟩ := hl.bind
      obtain rfl := hreport.reportCoverage
      have hkeys : (net.nodes.map Node.key).Nodup := map_key_cores net ▸ hL.nodup
      have hgauged := Network.gauged_influencesWith hG.toOrdered hkeys hmem hr hp hcreated
      have hinit : Builds net created net := by
        refine ⟨hG, .refl _, Network.nodup_influencesWith hcreated ?_ ?_, fun k j hj hmem ↦ ?_⟩
        · exact (Network.nodup_rulesAt hkeys).sublist (List.filter_sublist.map _)
        · intro e he
          simpa using (List.mem_filter.1 he).2
        · obtain ⟨i, hi, hrules⟩ := List.mem_map.1 hmem
          obtain ⟨m, m', hranks, -⟩ := hG.ranks k j hj (Set.notMem_empty k)
          rcases (hgauged i hi).2 with he | he
          · exact Layout.Isolated.ne_of_mem hwon hranks.effect
              ((congrArg Prod.fst hrules).symm.trans he)
          · exact Layout.Isolated.ne_of_mem hlost hranks.loss
              ((congrArg Prod.snd hrules).symm.trans he)
      have hrun : Builds net [] net' := hloop.forM hinit fun i _ _ _ hi hB hstep ↦ by
        obtain ⟨⟨s, t, houtranks, hg⟩, -⟩ := hgauged i hi
        exact hB.step houtranks hg hstep
      exact ⟨hrun.graded, hrun.reranked⟩

/-- The influences have gone, and no others have come. -/
structure Rid (ks : List Handle) (X : Set Handle) (net net' : Network) : Prop
    extends Reranked net net' where
  graded : net'.layout.Graded X
  loses : net.layout.Loses net'.layout
  gone : ∀ k ∈ ks, net'.layout.influences.find? k = none

/-- Removing the influences in which a rule loses that has forgotten them. -/
theorem Leads.rid_dropLost {ks : List Handle} (hl : Leads (ks.forM Engine.dropLost) net () net')
    (hG : net.layout.Graded X) (hk : ∀ k ∈ ks, ∀ key, k ∉ net.layout.lost key) :
    Rid ks X net net' := by
  have hrun := hl.forM (I := fun rest mid ↦ mid.layout.Graded X ∧ Reranked net mid ∧
      net.layout.Loses mid.layout ∧ ∀ k ∈ ks, k ∈ rest ∨ mid.layout.influences.find? k = none)
    ⟨hG, .refl _, .refl _, fun _ ↦ .inl⟩ (by
      rintro k rest mid mid' hmem ⟨hGmid, hreranked, hloses, hgone⟩ hstep
      obtain ⟨hlayout, hflows, hroster⟩ := hstep.dropLost hGmid.toOrdered fun key hmem' ↦
        hk k hmem key (hloses.lost key k hmem')
      refine ⟨hlayout ▸ hGmid.unrank, hreranked.trans ⟨⟨_, _, _, hlayout⟩, hflows, hroster⟩,
        hloses.trans (hlayout ▸ .unrank _ k), fun k' hk' ↦ ?_⟩
      rw [hlayout, Layout.unrank, Layout.reorder, Arena.find?_erase]
      grind)
  obtain ⟨hG', hreranked, hloses, hgone⟩ := hrun
  exact ⟨hreranked, hG', hloses, fun k hk ↦ (hgone k hk).resolve_left List.not_mem_nil⟩

/-- Removing the influences in which a rule wins that has forgotten them. -/
theorem Leads.rid_dropWon {ks : List Handle} {given : List Influence}
    (hl : Leads (Engine.dropWon ks) net given net') (hG : net.layout.Graded X)
    (hk : ∀ k ∈ ks, ∀ key, k ∉ net.layout.won key) : Rid ks X net net' := by
  induction ks generalizing net given with
  | nil =>
    obtain ⟨-, rfl⟩ := leads_pure.1 hl
    exact ⟨.refl _, hG, .refl _, by simp⟩
  | cons k ks ih =>
    -- what is left to do once `k` is gone
    have hrest : ∀ {mid more}, mid.layout = net.layout.unrank k → mid.flows = net.flows →
        mid.roster = net.roster → Leads (Engine.dropWon ks) mid more net' →
        Rid (k :: ks) X net net' := by
      intro mid more hlayout hflows hroster hmore
      have hloses : net.layout.Loses mid.layout := hlayout ▸ .unrank _ k
      have hrid := ih hmore (hlayout ▸ hG.unrank) fun k' hk' key hmem ↦
        hk k' (List.mem_cons_of_mem _ hk') key (hloses.won key k' hmem)
      refine ⟨.trans ⟨⟨_, _, _, hlayout⟩, hflows, hroster⟩ hrid.toReranked, hrid.graded,
        hloses.trans hrid.loses, List.forall_mem_cons.2 ⟨?_, hrid.gone⟩⟩
      have hdead : mid.layout.influences.find? k = none := by
        rw [hlayout, Layout.unrank, Layout.reorder, Arena.find?_erase, if_pos rfl]
      refine Option.eq_none_iff_forall_ne_some.2 fun i hi ↦ ?_
      exact absurd (hdead.symm.trans (hrid.loses.there k i hi)) (by simp)
    obtain ⟨o, mid, hremove, hl⟩ := Leads.bind hl
    obtain ⟨rfl, rfl⟩ := hremove.removeInfluence
    cases hi : net.influences.find? k with
    | none =>
      simp only [hi] at hl
      exact hrest (layout_eraseDead hG.toOrdered hi) rfl rfl hl
    | some i =>
      simp only [hi, leads_node_bind, leads_updateNode_bind] at hl
      obtain ⟨n, hn, hl⟩ := hl
      obtain ⟨-, hkey⟩ := nodeAt?_eq_some hn
      rw [hkey] at hl
      obtain ⟨more, mid, hmore, hl⟩ := hl.bind
      obtain ⟨-, rfl⟩ := leads_pure.1 hl
      exact hrest (layout_eraseLost hG.toOrdered hi hn (hk k List.mem_cons_self)) rfl roster_mapRule
        hmore

/-- **A rule gives up its influences**, which are gone then. -/
theorem graded_surrender {n : Node} {r : Rule} {net₂ net₃ : Network} {given : List Influence}
    (hn : net.nodeAt? key = some n) (hr : n.rule? = some r)
    (hlosses : Leads (r.influencedBy.forM dropLost) (withNode net key (Node.mapRule fun r ↦
      { r with influencedBy := [], effectOn := [] })) () net₂)
    (hwins : Leads (dropWon r.effectOn) net₂ given net₃) (hG : net.layout.Graded ∅) :
    net₃.layout.Graded ∅ ∧ Reranked net net₃ ∧ net₃.layout.lost key = [] ∧
      net₃.layout.won key = [] := by
  obtain ⟨hlost, hwon⟩ := lost_won_of_rule hn hr
  have hforget : (withNode net key (Node.mapRule fun r ↦
      { r with influencedBy := [], effectOn := [] })).layout = net.layout.forget key :=
    layout_mapRule (k := fun r ↦ { r with influencedBy := [], effectOn := [] })
      (fun _ ↦ []) (fun _ ↦ []) (Layout.core?_of_nodeAt? hn) (fun _ ↦ ⟨rfl, rfl⟩) fun _ ↦ rfl
  have hrid₂ := hlosses.rid_dropLost (hforget ▸ hG.forget) (by
    intro k hk key'
    rw [hforget]
    exact hG.not_mem_lost_forget (hlost ▸ hk) key')
  have hrid₃ := hwins.rid_dropWon hrid₂.graded (by
    intro k hk key' hk'
    have hk' := hrid₂.loses.won key' k hk'
    rw [hforget] at hk'
    exact hG.not_mem_won_forget (hwon ▸ hk) key' hk')
  have hloses := hrid₂.loses.trans hrid₃.loses
  rw [hforget] at hloses
  refine ⟨hrid₃.graded.strengthen ?_, ?_, ?_, ?_⟩
  -- all that was excepted was lost or won by the rule, and both are gone
  · rintro k (hk | hk)
    · refine Option.eq_none_iff_forall_ne_some.2 fun i hi ↦ ?_
      exact absurd ((hrid₂.gone k (hlost ▸ hk)).symm.trans (hrid₃.loses.there k i hi)) (by simp)
    · exact hrid₃.gone k (hwon ▸ hk)
  · exact .trans ⟨⟨_, _, _, hforget⟩, rfl, roster_mapRule⟩ (hrid₂.toReranked.trans hrid₃.toReranked)
  · refine List.eq_nil_iff_forall_not_mem.2 fun k hk ↦ ?_
    exact (Layout.mem_lost_forget.1 (hloses.lost key k hk)).2 rfl
  · refine List.eq_nil_iff_forall_not_mem.2 fun k hk ↦ ?_
    exact (Layout.mem_won_forget.1 (hloses.won key k hk)).2 rfl

end Engine

end HeaderFlow
