import HeaderFlow.Proofs.Network.Connect

/-!
# Layouts with other influences

An influence says that one rule takes headers from another. Pipes and nodes have nothing to do with
it, so every change of influences is a `Layout.reorder`, and all that has to be said about flows is
**which headers are taken from them in the new layout** (`Layout.shift_reorder`). This module is
about layouts alone: no step of the engine occurs in it.

* `Layout.rank` has an influence more. What is taken is what was, and what the new influence takes
  (`Layout.taken_rank`), so flows may have headers in excess.
* `Layout.unrank` has an influence less. What is taken no longer was taken by the influence that is
  gone (`Layout.Taken.unrank`), so flows may be stale.
* `Layout.forget` is what a rule leaves behind that is about to go: it lists no influences, while
  the rules at the other ends still list theirs. These are the influences that `Layout.Ordered`
  excepts for a while, and `Layout.Ordered.strengthen` says when the exception is over.

`Layout.Loses` collects what all steps of a removal have in common, and `Upheld.reorder` is the one
place at which the invariant is carried over to other influences.
-/

namespace HeaderFlow

variable {L : Layout} {net net' : Network} {F F' : Arena Flow} {D C : Set Debt} {X Y : Set Handle}
  {E : NodeKey → NodeKey → Link → Prop} {R T : NodeKey → NodeKey → Prop} {k : Handle}
  {i : Influence} {n m : Core} {key : NodeKey} {I : Arena Influence}
  {lost won : NodeKey → List Handle} {port : Port} {x : Nat → Bool}

namespace Layout

/-- The layout with other influences. -/
def reorder (L : Layout) (I : Arena Influence) (lost won : NodeKey → List Handle) : Layout :=
  { L with influences := I, lost := lost, won := won }

/-- Being well formed is about nodes, pipes and records, none of which knows of influences. -/
theorem WellFormed.reorder (hL : L.WellFormed) : (L.reorder I lost won).WellFormed := by
  have hjoins : ∀ {fwd back a b n m}, L.Joins fwd back a b n m →
      (L.reorder I lost won).Joins fwd back a b n m := fun hj ↦ { hj with }
  refine ⟨hL.pipes, hL.nodup, hL.fresh, hL.proper, hL.found, hL.mirrored, fun key fwd hfwd ↦ ?_,
    fun key back hback ↦ ?_, hL.once, hL.apart⟩
  · obtain ⟨back, a, b, n, m, hj, hkey⟩ := hL.next key fwd hfwd
    exact ⟨back, a, b, n, m, hjoins hj, hkey⟩
  · obtain ⟨fwd, a, b, n, m, hj, hkey⟩ := hL.prev key back hback
    exact ⟨fwd, a, b, n, m, hjoins hj, hkey⟩

/-- **Of influences, flows only notice what is taken from them.** -/
theorem shift_reorder
    (hless : ∀ h f x, F.find? h = some f → L.Taken f.node f.port x →
      (L.reorder I lost won).Taken f.node f.port x ∨ .stale h ∈ D)
    (hmore : ∀ h f x, F.find? h = some f → (L.reorder I lost won).Taken f.node f.port x →
      L.Taken f.node f.port x ∨ .stale h ∈ D ∨ .excess h x ∈ D) :
    Shift L (L.reorder I lost won) F D where
  keyMask := rfl
  core _ _ _ := rfl
  kept _ _ _ _ _ _ _ hrun := hrun
  runs _ _ hrun := .inl hrun
  less := hless
  more := hmore

/-! ### A new influence -/

/-- The layout with an influence more. -/
def rank (L : Layout) (i : Influence) : Layout :=
  L.reorder (L.influences.insert i)
    (fun key ↦ if key = i.influenced then L.lost key ++ [L.influences.nextHandle] else L.lost key)
    fun key ↦ if key = i.influencer then L.won key ++ [L.influences.nextHandle] else L.won key

/-- The loser lists one influence more. -/
theorem mem_lost_rank : k ∈ (L.rank i).lost key ↔
    k ∈ L.lost key ∨ key = i.influenced ∧ k = L.influences.nextHandle := by
  simp only [rank, reorder]
  split <;> simp_all

/-- The winner lists one influence more. -/
theorem mem_won_rank : k ∈ (L.rank i).won key ↔
    k ∈ L.won key ∨ key = i.influencer ∧ k = L.influences.nextHandle := by
  simp only [rank, reorder]
  split <;> simp_all

/-- The influences that were there are found as before: the handle of the new one is not in use. -/
theorem find?_rank_of_some {j : Influence} (hI : L.influences.Valid)
    (hj : L.influences.find? k = some j) : (L.rank i).influences.find? k = some j :=
  Arena.find?_insert_of_some hI hj

theorem find?_rank_self (hI : L.influences.Valid) :
    (L.rank i).influences.find? L.influences.nextHandle = some i := Arena.find?_insert_self hI

/-- An influence that ranks two rules still does so. -/
theorem Ranks.rank {j : Influence} (hr : L.Ranks k j m n) : (L.rank i).Ranks k j m n :=
  { hr with
    effect := mem_won_rank.2 (.inl hr.effect)
    loss := mem_lost_rank.2 (.inl hr.loss) }

/-- The new influence. -/
theorem Outranks.rank (hi : L.Outranks i m n) :
    (L.rank i).Ranks L.influences.nextHandle i m n :=
  { hi with
    effect := mem_won_rank.2 (.inr ⟨rfl, rfl⟩)
    loss := mem_lost_rank.2 (.inr ⟨rfl, rfl⟩) }

/-- **A new influence keeps the others as they were.** -/
theorem Ordered.rank (ho : L.Ordered X) (hi : L.Outranks i m n) : (L.rank i).Ordered X := by
  refine ⟨Arena.valid_insert ho.influences, fun key k hk ↦ ?_, fun key k hk ↦ ?_, ho.place⟩
  · rcases mem_lost_rank.1 hk with hk | ⟨rfl, rfl⟩
    · obtain ⟨j, hj, hkey, hr⟩ := ho.lost key k hk
      exact ⟨j, find?_rank_of_some ho.influences hj, hkey, fun hX ↦
        (hr hX).imp fun m ⟨n, hr⟩ ↦ ⟨n, hr.rank⟩⟩
    · exact ⟨i, find?_rank_self ho.influences, rfl, fun _ ↦ ⟨m, n, hi.rank⟩⟩
  · rcases mem_won_rank.1 hk with hk | ⟨rfl, rfl⟩
    · obtain ⟨j, hj, hkey, hr⟩ := ho.won key k hk
      exact ⟨j, find?_rank_of_some ho.influences hj, hkey, fun hX ↦
        (hr hX).imp fun m ⟨n, hr⟩ ↦ ⟨n, hr.rank⟩⟩
    · exact ⟨i, find?_rank_self ho.influences, rfl, fun _ ↦ ⟨m, n, hi.rank⟩⟩

/-- An influence that was missing is missing no more. -/
theorem Ranked.rank (hr : L.Ranked R) (ho : L.Ordered X)
    (hR : ∀ m n, R m n → T m n ∨ m = i.influencer ∧ n = i.influenced) : (L.rank i).Ranked T := by
  intro n hn m hm table place place' w w' hkn hkm hlt hnot port hport hport' p q x hp hq hpx hqx
  by_cases hmissing : R m.key n.key
  · obtain ⟨hm', hn'⟩ := (hR _ _ hmissing).resolve_left hnot
    exact ⟨L.influences.nextHandle, mem_lost_rank.2 (.inr ⟨hn', rfl⟩), i,
      find?_rank_self ho.influences, hm'.symm⟩
  · obtain ⟨k, hk, j, hj, hinfluencer⟩ := hr n hn m hm table place place' w w' hkn hkm hlt hmissing
      port hport hport' p q x hp hq hpx hqx
    exact ⟨k, mem_lost_rank.2 (.inl hk), j, find?_rank_of_some ho.influences hj, hinfluencer⟩

/-- **What is taken is what was, and what the new influence takes.** -/
theorem taken_rank (ho : L.Ordered X) (hi : L.Outranks i m n) :
    (L.rank i).Taken key port x ↔ L.Taken key port x ∨
      key = i.influenced ∧ port ∈ i.ports.toList ∧ i.common.Matches x := by
  constructor
  · rintro ⟨hrule, k, hk, j, hj, hport, hx⟩
    rcases mem_lost_rank.1 hk with hk | ⟨rfl, rfl⟩
    · obtain ⟨j', hj', -⟩ := ho.lost key k hk
      obtain rfl := Option.some.inj ((find?_rank_of_some ho.influences hj').symm.trans hj)
      exact .inl ⟨hrule, k, hk, j', hj', hport, hx⟩
    · obtain rfl := Option.some.inj ((find?_rank_self ho.influences).symm.trans hj)
      exact .inr ⟨rfl, hport, hx⟩
  · rintro (⟨hrule, k, hk, j, hj, hport, hx⟩ | ⟨rfl, hport, hx⟩)
    · exact ⟨hrule, k, mem_lost_rank.2 (.inl hk), j, find?_rank_of_some ho.influences hj, hport, hx⟩
    · obtain ⟨table, _, place, _, w, _, hkind, _⟩ := hi.order
      exact ⟨⟨n, hi.influenced, table, place, w, hkind⟩, _, mem_lost_rank.2 (.inr ⟨rfl, rfl⟩), i,
        find?_rank_self ho.influences, hport, hx⟩

/-! ### An influence that goes -/

/-- The layout without an influence. -/
def unrank (L : Layout) (k : Handle) : Layout :=
  L.reorder (L.influences.erase k) (fun key ↦ (L.lost key).filter (· ≠ k))
    fun key ↦ (L.won key).filter (· ≠ k)

variable {k' : Handle}

/-- No node lists the influence that is gone among those it loses in. -/
theorem mem_lost_unrank : k' ∈ (L.unrank k).lost key ↔ k' ∈ L.lost key ∧ k' ≠ k := by
  simp [unrank, reorder]

/-- No node lists the influence that is gone among those it wins in. -/
theorem mem_won_unrank : k' ∈ (L.unrank k).won key ↔ k' ∈ L.won key ∧ k' ≠ k := by
  simp [unrank, reorder]

theorem find?_unrank_of_ne (hk : k' ≠ k) :
    (L.unrank k).influences.find? k' = L.influences.find? k' := by
  rw [unrank, reorder, Arena.find?_erase, if_neg hk]

/-- The other influences rank the rules that they ranked before. -/
theorem Ranks.unrank {j : Influence} (hr : L.Ranks k' j m n) (hne : k' ≠ k) :
    (L.unrank k).Ranks k' j m n :=
  { hr with
    effect := mem_won_unrank.2 ⟨hr.effect, hne⟩
    loss := mem_lost_unrank.2 ⟨hr.loss, hne⟩ }

/-- **An influence that goes leaves the others in order**, with the same exceptions: it is erased
together with its entries at both ends, or there was no such entry. -/
theorem Ordered.unrank (ho : L.Ordered X) : (L.unrank k).Ordered X := by
  refine ⟨Arena.valid_erase ho.influences, fun key k' hk' ↦ ?_, fun key k' hk' ↦ ?_, ho.place⟩
  · obtain ⟨hk', hne⟩ := mem_lost_unrank.1 hk'
    obtain ⟨j, hj, hkey, hr⟩ := ho.lost key k' hk'
    exact ⟨j, (find?_unrank_of_ne hne).trans hj, hkey, fun hX ↦
      (hr hX).imp fun m ⟨n, hr⟩ ↦ ⟨n, hr.unrank hne⟩⟩
  · obtain ⟨hk', hne⟩ := mem_won_unrank.1 hk'
    obtain ⟨j, hj, hkey, hr⟩ := ho.won key k' hk'
    exact ⟨j, (find?_unrank_of_ne hne).trans hj, hkey, fun hX ↦
      (hr hX).imp fun m ⟨n, hr⟩ ↦ ⟨n, hr.unrank hne⟩⟩

/-- An influence may go where it is admitted that one is missing. -/
theorem Ranked.unrank (hr : L.Ranked R) (ho : L.Ordered X)
    (hR : ∀ i, L.influences.find? k = some i → R i.influencer i.influenced) :
    (L.unrank k).Ranked R := by
  intro n hn m hm table place place' w w' hkn hkm hlt hnot port hport hport' p q x hp hq hpx hqx
  obtain ⟨k', hk', j, hj, hinfluencer⟩ := hr n hn m hm table place place' w w' hkn hkm hlt hnot
    port hport hport' p q x hp hq hpx hqx
  have hne : k' ≠ k := by
    rintro rfl
    obtain ⟨i, hi, hinfluenced, -⟩ := ho.lost _ _ hk'
    obtain rfl := Option.some.inj (hi.symm.trans hj)
    exact hnot (hinfluencer ▸ hinfluenced ▸ hR i hi)
  exact ⟨k', mem_lost_unrank.2 ⟨hk', hne⟩, j, (find?_unrank_of_ne hne).trans hj, hinfluencer⟩

/-- Nothing is taken that was not taken before. -/
theorem Taken.of_unrank (ht : (L.unrank k).Taken key port x) : L.Taken key port x := by
  obtain ⟨hrule, k', hk', j, hj, hx⟩ := ht
  obtain ⟨hk', hne⟩ := mem_lost_unrank.1 hk'
  exact ⟨hrule, k', hk', j, (find?_unrank_of_ne hne).symm.trans hj, hx⟩

/-- **What is no longer taken was taken by the influence that is gone.** -/
theorem Taken.unrank (ho : L.Ordered X) (ht : L.Taken key port x) :
    (L.unrank k).Taken key port x ∨ k ∈ L.lost key ∧ ∃ i, L.influences.find? k = some i ∧
      key = i.influenced ∧ port ∈ i.ports.toList := by
  obtain ⟨hrule, k', hk', j, hj, hport, hx⟩ := ht
  by_cases hne : k' = k
  · subst hne
    obtain ⟨i, hi, hinfluenced, -⟩ := ho.lost key k' hk'
    obtain rfl := Option.some.inj (hi.symm.trans hj)
    exact .inr ⟨hk', i, hi, hinfluenced.symm, hport⟩
  · exact .inl ⟨hrule, k', mem_lost_unrank.2 ⟨hk', hne⟩, j,
      (find?_unrank_of_ne hne).trans hj, hport, hx⟩

/-! ### A rule that is about to go -/

/-- The layout in which a node lists no influences. -/
def forget (L : Layout) (key : NodeKey) : Layout :=
  L.reorder L.influences (fun key' ↦ if key' = key then [] else L.lost key')
    fun key' ↦ if key' = key then [] else L.won key'

/-- Only the node itself has forgotten what it loses in; the others list what they listed. -/
theorem mem_lost_forget {key' : NodeKey} :
    k ∈ (L.forget key).lost key' ↔ k ∈ L.lost key' ∧ key' ≠ key := by
  simp only [forget, reorder]
  split <;> simp_all

/-- Only the node itself has forgotten what it wins in. -/
theorem mem_won_forget {key' : NodeKey} :
    k ∈ (L.forget key).won key' ↔ k ∈ L.won key' ∧ key' ≠ key := by
  simp only [forget, reorder]
  split <;> simp_all

/-- **An influence is lost by one rule**, so no rule lists it once that one has forgotten it. -/
theorem Ordered.not_mem_lost_forget (ho : L.Ordered X) (hk : k ∈ L.lost key) (key' : NodeKey) :
    k ∉ (L.forget key).lost key' := fun hmem ↦ by
  obtain ⟨hk', hne⟩ := mem_lost_forget.1 hmem
  obtain ⟨i, hi, hkey, -⟩ := ho.lost key k hk
  obtain ⟨i', hi', hkey', -⟩ := ho.lost key' k hk'
  obtain rfl := Option.some.inj (hi.symm.trans hi')
  exact hne (hkey'.symm.trans hkey)

/-- An influence is won by one rule, so no rule lists it once that one has forgotten it. -/
theorem Ordered.not_mem_won_forget (ho : L.Ordered X) (hk : k ∈ L.won key) (key' : NodeKey) :
    k ∉ (L.forget key).won key' := fun hmem ↦ by
  obtain ⟨hk', hne⟩ := mem_won_forget.1 hmem
  obtain ⟨i, hi, hkey, -⟩ := ho.won key k hk
  obtain ⟨i', hi', hkey', -⟩ := ho.won key' k hk'
  obtain rfl := Option.some.inj (hi.symm.trans hi')
  exact hne (hkey'.symm.trans hkey)

/-- The influences of a node. -/
def influencesOf (L : Layout) (key : NodeKey) : Set Handle := {k | k ∈ L.lost key ∨ k ∈ L.won key}

/-- An influence of other nodes is listed at both of its ends still. -/
theorem Ranks.forget {j : Influence} (hr : L.Ranks k j m n) (hk : k ∉ L.influencesOf key) :
    (L.forget key).Ranks k j m n :=
  { hr with
    effect := mem_won_forget.2 ⟨hr.effect, fun he ↦ hk (.inr (he ▸ hr.effect))⟩
    loss := mem_lost_forget.2 ⟨hr.loss, fun he ↦ hk (.inl (he ▸ hr.loss))⟩ }

/-- **A rule that forgets its influences brings exactly these out of order**: each of them is still
listed at its other end. -/
theorem Ordered.forget (ho : L.Ordered ∅) : (L.forget key).Ordered (L.influencesOf key) := by
  refine ⟨ho.influences, fun key' k hk ↦ ?_, fun key' k hk ↦ ?_, ho.place⟩
  · obtain ⟨j, hj, hkey, hr⟩ := ho.lost key' k (mem_lost_forget.1 hk).1
    exact ⟨j, hj, hkey, fun hX ↦ (hr (by simp)).imp fun m ⟨n, hr⟩ ↦ ⟨n, hr.forget hX⟩⟩
  · obtain ⟨j, hj, hkey, hr⟩ := ho.won key' k (mem_won_forget.1 hk).1
    exact ⟨j, hj, hkey, fun hX ↦ (hr (by simp)).imp fun m ⟨n, hr⟩ ↦ ⟨n, hr.forget hX⟩⟩

/-- No influence is missing that was not admitted to be missing at the node. -/
theorem Ranked.forget (hr : L.Ranked R) (hR : ∀ m, R m key) : (L.forget key).Ranked R := by
  intro n hn m hm table place place' w w' hkn hkm hlt hnot port hport hport' p q x hp hq hpx hqx
  obtain ⟨k, hk, hi⟩ := hr n hn m hm table place place' w w' hkn hkm hlt hnot port hport
    hport' p q x hp hq hpx hqx
  exact ⟨k, mem_lost_forget.2 ⟨hk, fun he ↦ hnot (he ▸ hR m.key)⟩, hi⟩

/-- What is taken at other nodes is as it was. At the node itself nothing is taken any more, which
is why it must not have flows by then. -/
theorem taken_forget {key' : NodeKey} (hne : key' ≠ key) :
    (L.forget key).Taken key' port x ↔ L.Taken key' port x := by
  simp only [Taken, mem_lost_forget, hne, ne_eq, not_false_eq_true, and_true]
  rfl

/-- No node lists the influence. -/
def Unlisted (L : Layout) (k : Handle) : Prop := ∀ key, k ∉ L.lost key ∧ k ∉ L.won key

/-- Influences that nobody lists need not be excepted. -/
theorem Ordered.strengthen (ho : L.Ordered X) (hX : ∀ k ∈ X, L.Unlisted k) : L.Ordered ∅ := by
  refine ⟨ho.influences, fun key k hk ↦ ?_, fun key k hk ↦ ?_, ho.place⟩
  · obtain ⟨i, hi, hkey, hr⟩ := ho.lost key k hk
    exact ⟨i, hi, hkey, fun _ ↦ hr fun hmem ↦ (hX k hmem key).1 hk⟩
  · obtain ⟨i, hi, hkey, hr⟩ := ho.won key k hk
    exact ⟨i, hi, hkey, fun _ ↦ hr fun hmem ↦ (hX k hmem key).2 hk⟩

/-- The layouts differ at most in influences that are gone. -/
structure Loses (L L' : Layout) : Prop where
  same : ∃ I lost won, L' = L.reorder I lost won
  lost : ∀ key k, k ∈ L'.lost key → k ∈ L.lost key
  won : ∀ key k, k ∈ L'.won key → k ∈ L.won key
  there : ∀ k i, L'.influences.find? k = some i → L.influences.find? k = some i

namespace Loses

variable {L' L'' : Layout}

theorem refl (L : Layout) : Loses L L := ⟨⟨_, _, _, rfl⟩, by simp, by simp, by simp⟩

/-- Losing influences is transitive, so a loop that drops them one by one loses them all. -/
theorem trans (h₁ : Loses L L') (h₂ : Loses L' L'') : Loses L L'' := by
  obtain ⟨I, lost, won, hL'⟩ := h₁.same
  obtain ⟨I', lost', won', hL''⟩ := h₂.same
  refine ⟨⟨I', lost', won', ?_⟩, fun key k hk ↦ h₁.lost key k (h₂.lost key k hk),
    fun key k hk ↦ h₁.won key k (h₂.won key k hk), fun k i hi ↦ h₁.there k i (h₂.there k i hi)⟩
  rw [hL'', hL']
  rfl

/-- A layout loses the influence that goes. -/
theorem unrank (L : Layout) (k : Handle) : Loses L (L.unrank k) := by
  refine ⟨⟨_, _, _, rfl⟩, fun key k' hk ↦ (mem_lost_unrank.1 hk).1,
    fun key k' hk ↦ (mem_won_unrank.1 hk).1, fun k' i hi ↦ ?_⟩
  rw [Layout.unrank, reorder, Arena.find?_erase] at hi
  split at hi
  · exact absurd hi (by simp)
  · exact hi

/-- A layout loses what a node forgets, although the influences themselves are still there. -/
theorem forget (L : Layout) (key : NodeKey) : Loses L (L.forget key) :=
  ⟨⟨_, _, _, rfl⟩, fun _ _ hk ↦ (mem_lost_forget.1 hk).1, fun _ _ hk ↦ (mem_won_forget.1 hk).1,
    fun _ _ hi ↦ hi⟩

/-- An influence that nobody lists is not listed later on. -/
theorem unlisted (hl : Loses L L') (hk : L.Unlisted k) : L'.Unlisted k := fun key ↦
  ⟨fun hmem ↦ (hk key).1 (hl.lost key k hmem), fun hmem ↦ (hk key).2 (hl.won key k hmem)⟩

end Loses

theorem unlisted_unrank (L : Layout) (k : Handle) : (L.unrank k).Unlisted k := fun _ ↦
  ⟨fun hk ↦ (mem_lost_unrank.1 hk).2 rfl, fun hk ↦ (mem_won_unrank.1 hk).2 rfl⟩

end Layout

/-- **Other influences uphold everything**, as far as flows notice. -/
theorem Upheld.reorder (hU : Upheld net D X E R)
    (hlayout : net'.layout = net.layout.reorder I lost won) (hflows : net'.flows = net.flows)
    (hroster : net'.roster = net.roster) (hD : D ⊆ C)
    (hless : ∀ h f x, net.flows.find? h = some f → net.layout.Taken f.node f.port x →
      net'.layout.Taken f.node f.port x ∨ .stale h ∈ C)
    (hmore : ∀ h f x, net.flows.find? h = some f → net'.layout.Taken f.node f.port x →
      net.layout.Taken f.node f.port x ∨ .stale h ∈ C ∨ .excess h x ∈ C)
    (hordered : net'.layout.Ordered Y) (hranked : net'.layout.Ranked T) :
    Upheld net' C Y E T := by
  rw [hlayout] at hless hmore
  have hshift : Shift net.layout net'.layout net.flows C :=
    hlayout ▸ Layout.shift_reorder hless hmore
  refine ⟨hU.inv.shift hshift hD (hlayout ▸ hU.inv.layout.reorder) hflows hroster, hordered,
    ?_, hranked⟩
  rw [hlayout]
  exact hU.wired

end HeaderFlow
