import Mathlib.Data.Set.Card
import Mathlib.Order.Interval.Finset.Nat
import HeaderFlow.Proofs.Network.SafeArrival
import HeaderFlow.Proofs.Network.Twins

/-!
# More fuel changes nothing

The walk up from a flow and the walk down a tree of flows have the number of slots for their fuel.
Where flows have ranks (`Ranked`), each step goes to a flow whose rank differs from that of all
before, so **a walk is over before its fuel is used up**, and does the same with more of it. Two
networks with different numbers of slots can then be compared with the same fuel.

## Counting slots

Flows whose ranks are above a given one take up slots, of which there are finitely many, and leaving
out one live flow takes one less (`ncard_slotsOf_lt`). So the number of those slots goes down along
a walk, and the fuel is enough if it is no less than that number. This is needed for networks that
were broken off, too, where depths are not available.
-/

namespace HeaderFlow

open Engine (Leads Shed)

variable {rank : Handle → Nat} {F F' : Arena Flow} {h c : Handle} {f : Flow} {fuel N : Nat}

/-! ### Kin by rank -/

/-- The slots of the flows whose ranks have the property. -/
def Arena.slotsOf (rank : Handle → Nat) (F : Arena Flow) (P : Nat → Prop) : Set Nat :=
  {i | ∃ g f, g.index = i ∧ F.find? g = some f ∧ P (rank g)}

namespace Arena

variable {P Q : Nat → Prop}

theorem slotsOf_subset : F.slotsOf rank P ⊆ Set.Iio F.slots.size := by
  rintro _ ⟨g, f, rfl, hf, -⟩
  exact index_lt hf

theorem finite_slotsOf : (F.slotsOf rank P).Finite := (Set.finite_Iio _).subset slotsOf_subset

/-- There are no more such slots than slots. -/
theorem ncard_slotsOf_le : (F.slotsOf rank P).ncard ≤ F.slots.size := by
  refine (Set.ncard_le_ncard slotsOf_subset (Set.finite_Iio _)).trans_eq ?_
  rw [← Finset.coe_Iio, Set.ncard_coe_finset, Nat.card_Iio]

/-- A live flow takes a slot. -/
theorem ncard_slotsOf_pos (rank : Handle → Nat) (hf : F.find? h = some f) (hP : P (rank h)) :
    0 < (F.slotsOf rank P).ncard :=
  (Set.ncard_pos finite_slotsOf).2 ⟨h.index, h, f, rfl, hf, hP⟩

/-- **Leaving out a live flow takes a slot less.** -/
theorem ncard_slotsOf_lt (rank : Handle → Nat) (hf : F.find? h = some f) (hP : P (rank h))
    (hQ : ¬ Q (rank h)) (hQP : ∀ k, Q k → P k) :
    (F.slotsOf rank Q).ncard < (F.slotsOf rank P).ncard := by
  refine Set.ncard_lt_ncard ⟨?_, fun hsub ↦ ?_⟩ finite_slotsOf
  · rintro i ⟨g, l, hi, hl, hg⟩
    exact ⟨g, l, hi, hl, hQP _ hg⟩
  · obtain ⟨g, l, hindex, hl, hg⟩ := hsub ⟨h, f, rfl, hf, hP⟩
    exact hQ (eq_of_index_eq hl hf hindex ▸ hg)

/-- Flows that go give up their slots, and none takes one. -/
theorem ncard_slotsOf_shed (rank : Handle → Nat) (hs : Shed F F') :
    (F'.slotsOf rank P).ncard ≤ (F.slotsOf rank P).ncard := by
  refine Set.ncard_le_ncard ?_ finite_slotsOf
  rintro i ⟨g, f', hi, hf', hg⟩
  obtain ⟨f, hf, -⟩ := hs.children g f' hf'
  exact ⟨g, f, hi, hf, hg⟩

end Arena

/-! ### Going up -/

namespace Network

/-- One more unit of fuel does not lead farther up. -/
theorem ancestry_succ (hR : Ranked rank F) {start : Option Handle}
    (hfuel : ∀ h, start = some h → (F.slotsOf rank (· ≤ rank h)).ncard ≤ fuel) :
    ancestry F (fuel + 1) start = ancestry F fuel start := by
  induction fuel generalizing start with
  | zero =>
    cases start with
    | none => rfl
    | some h =>
      cases hf : F.find? h with
      | none => simp [ancestry, hf]
      | some f =>
        have hpos := Arena.ncard_slotsOf_pos rank (P := (· ≤ rank h)) hf (Nat.le_refl _)
        exact absurd (hfuel h rfl) (Nat.not_le.2 hpos)
  | succ fuel ih =>
    cases start with
    | none => rfl
    | some h =>
      rw [ancestry, ancestry]
      cases hf : F.find? h with
      | none => rfl
      | some f =>
        refine congrArg (f :: ·) (ih fun p hp ↦ ?_)
        have hlt := (hR h f hf).1 p hp
        have hless := Arena.ncard_slotsOf_lt rank (P := (· ≤ rank h)) (Q := (· ≤ rank p)) hf
          (Nat.le_refl _) (Nat.not_le.2 hlt) fun k hk ↦ Nat.le_trans hk (Nat.le_of_lt hlt)
        have := hfuel h rfl
        omega

/-- **A walk up can have any fuel that is no less than the number of slots.** -/
theorem lineage_eq_ancestry {net : Network} (hR : Ranked rank net.flows)
    (hN : net.flows.slots.size ≤ N) (start : Option Handle) :
    net.lineage start = ancestry net.flows N start := by
  induction N, hN using Nat.le_induction with
  | base => rfl
  | succ N hN ih =>
    rw [ih, ancestry_succ hR fun h _ ↦ Arena.ncard_slotsOf_le.trans hN]

end Network

/-! ### Going down -/

namespace Engine

variable {α β : Type} {x y : Engine α} {p : Progress}

/-- Two sequences do the same if their parts do, as they are run. -/
theorem bind_congr {k l : α → Engine β} (hxy : x p = y p)
    (hkl : ∀ a p', y p = .ok a p' → k a p' = l a p') : (x >>= k) p = (y >>= l) p := by
  simp only [Bind.bind, EStateM.bind, hxy]
  split
  · exact hkl _ _ ‹_›
  · rfl

/-- Reading a flow, as it is run. -/
theorem flow?_bind_run {k : Option Flow → Engine β} :
    (flow? h >>= k) p = k (p.network.flows.find? h) p := rfl

/-- Two walks do the same if their steps do, as long as what they rely on is kept. -/
theorem forM_congr {l : List α} {x y : α → Engine Unit} {I : Network → Prop} (hI : I p.network)
    (hxy : ∀ a ∈ l, ∀ q, I q.network → x a q = y a q)
    (hkeep : ∀ a ∈ l, ∀ net net', I net → Leads (y a) net () net' → I net') :
    l.forM x p = l.forM y p := by
  induction l generalizing p with
  | nil => rfl
  | cons a l ih =>
    refine bind_congr (k := fun _ ↦ l.forM x) (l := fun _ ↦ l.forM y)
      (hxy a List.mem_cons_self p hI) fun _ p' hrun ↦ ?_
    exact ih (hkeep a List.mem_cons_self _ _ hI ⟨p.reports, p'.reports, hrun⟩)
      (fun b hb ↦ hxy b (List.mem_cons_of_mem _ hb)) fun b hb ↦ hkeep b (List.mem_cons_of_mem _ hb)

/-- What came from a flow has a greater rank. -/
def Falls (rank : Handle → Nat) (F : Arena Flow) : Prop :=
  ∀ h f, F.find? h = some f → ∀ c ∈ f.children, rank h < rank c

/-- Ranks still fall when flows have gone. -/
theorem Falls.shed (hF : Falls rank F) (hs : Shed F F') : Falls rank F' := fun h f' hf' c hc ↦ by
  obtain ⟨f, hf, hsub⟩ := hs.children h f' hf'
  exact hF h f hf c (hsub hc)

/-- One more unit of fuel does not lead farther down. -/
theorem dropTree_succ (hF : Falls rank p.network.flows)
    (hfuel : (p.network.flows.slotsOf rank (rank h ≤ ·)).ncard ≤ fuel) :
    dropTree (fuel + 1) h p = dropTree fuel h p := by
  induction fuel generalizing h p with
  | zero =>
    cases hf : p.network.flows.find? h with
    | none =>
      rw [dropTree, dropTree, flow?_bind_run, hf]
    | some f =>
      have hpos := Arena.ncard_slotsOf_pos rank (P := (rank h ≤ ·)) hf (Nat.le_refl _)
      exact absurd hfuel (Nat.not_le.2 hpos)
  | succ fuel ih =>
    rw [dropTree, dropTree]
    refine bind_congr rfl fun o p₁ hrun ↦ ?_
    obtain ⟨rfl, rfl⟩ := EStateM.Result.ok.inj hrun
    cases hf : p.network.flows.find? h with
    | none => rfl
    | some f =>
      refine bind_congr rfl fun _ p₂ hdetach ↦ ?_
      have hshed : Shed p.network.flows p₂.network.flows :=
        Leads.shed_detachChildren ⟨p.reports, p₂.reports, hdetach⟩
      refine bind_congr ?_ fun _ _ _ ↦ rfl
      -- what is left of the tree never has more slots than now
      refine forM_congr (I := fun net ↦ Shed p.network.flows net.flows) hshed
        (fun c hc q hq ↦ ih (hF.shed hq) ?_) fun c _ net net' hI hl ↦ hI.trans hl.shed_dropTree
      have hlt := hF h f hf c hc
      have hless := Arena.ncard_slotsOf_lt rank (P := (rank h ≤ ·)) (Q := (rank c ≤ ·)) hf
        (Nat.le_refl _) (Nat.not_le.2 hlt) fun k hk ↦ Nat.le_trans (Nat.le_of_lt hlt) hk
      have hsub := Arena.ncard_slotsOf_shed rank (P := (rank c ≤ ·)) hq
      omega

/-- **A walk down can have any fuel that is no less than the number of slots.** -/
theorem dropSubtree_eq_dropTree (hR : Ranked rank p.network.flows)
    (hN : p.network.flows.slots.size ≤ N) : dropSubtree h p = dropTree N h p := by
  have hF : Falls rank p.network.flows := fun h f hf ↦ (hR h f hf).2
  induction N, hN using Nat.le_induction with
  | base => rfl
  | succ N hN ih => rw [ih, dropTree_succ hF (Arena.ncard_slotsOf_le.trans hN)]

end Engine

end HeaderFlow
