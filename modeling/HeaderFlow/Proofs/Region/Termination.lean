import HeaderFlow.Proofs.Region.Compact
import HeaderFlow.Proofs.Region.Rounds

/-!
# Compacting comes to an end

Compacting consists of three loops, one inside the other: the queue of patterns to condense, the
tight holes of a frame, and the rounds. Their definitions bound the number of steps. Here the loops
are written once more **as relations without any bound**, which hold of what goes in and what comes
out if the loop, left to run, stops there.

That the definitions answer what the relations say is that no bound is ever reached
(`compacts_compactAt`), and since the definitions always answer, every run stops. Each loop has its
own measure: in the queue a step costs an accepted pattern or one of the two that a queued one
counts for, a tight hole is traded for a frame, and rounds cost holes (`Wanes`).

The relations are inductive, so each of them has a derivation of finite depth: one for each step
that was taken. A proof about one of them goes by induction on the bound of the definition, and the
measure says that the bound that is left is enough for what is left to do. The relation for rounds
refers to the one for all holes of a region and the other way round, so they are defined together.
-/

namespace HeaderFlow

/-! ### The loops without bounds -/

/-- Working off the queue leaves the last list. -/
inductive Pattern.Condenses (mask : Option Pattern) :
    (queue accepted out : List Pattern) → Prop where
  | done {accepted : List Pattern} : Condenses mask [] accepted accepted
  | step {v : Pattern} {queue accepted out : List Pattern} {s : Sifted} :
      sift v mask accepted = .ok s →
      Condenses mask (queue ++ s.merged.toList)
      (if s.survives then s.accepted ++ [v] else s.accepted) out →
      Condenses mask (v :: queue) accepted out

namespace Region

/-- Condensing the plain regions of the first list leaves the second. -/
inductive CondensesPlain (mask : Option Pattern) (rs : List Region) : List Region → Prop where
  | short : rs.length < 2 → CondensesPlain mask rs (rs.filter fun r ↦ !r.frame.hasConflict)
  | long {ps : List Pattern} : ¬ rs.length < 2 →
      Pattern.Condenses mask (((rs.filter isPlain).map frame).filter fun p ↦ !p.hasConflict) [] ps →
      CondensesPlain mask rs (ps.map plain ++ rs.filter (not ∘ isPlain))

/-- Trading tight holes for smaller frames until there is none leaves the region, or nothing. -/
inductive Bites : Pattern → List Region → Option Region → Prop where
  | loose {f : Pattern} {hs : List Region} : firstTight f hs = .ok none →
    Bites f hs (some (mk f hs))
  | covered {f : Pattern} {hs : List Region} {j : Nat} {m : Pattern.Narrowed} :
      firstTight f hs = .ok (some (j, m)) → m.excess = 0 → Bites f hs none
  | narrowed {f : Pattern} {hs ds : List Region} {j : Nat} {m : Pattern.Narrowed}
      {o : Option Region} : firstTight f hs = .ok (some (j, m)) → m.excess ≠ 0 →
      clipList (swapRemove hs j) m.pattern = .ok ds → Bites m.pattern ds o → Bites f hs o

mutual

/-- Rounds until nothing changes leave the second region, or nothing. -/
inductive Compacts (mask : Option Pattern) : Region → Option Region → Prop where
  | empty {r : Region} : Turns mask r none → Compacts mask r none
  | stable {r : Region} : Turns mask r (some r) → Compacts mask r (some r)
  | again {r r' : Region} {o : Option Region} :
      Turns mask r (some r') → r' ≠ r → Compacts mask r' o → Compacts mask r o

/-- Compacting each region of the first list and dropping the empty ones leaves the second. -/
inductive CompactsEach (mask : Option Pattern) : List Region → List Region → Prop where
  | nil : CompactsEach mask [] []
  | cons {r : Region} {rs qs : List Region} {o : Option Region} :
      Compacts mask r o → CompactsEach mask rs qs → CompactsEach mask (r :: rs) (o.toList ++ qs)

/-- One round leaves the second region, or nothing. -/
inductive Turns (mask : Option Pattern) : Region → Option Region → Prop where
  | round {f : Pattern} {hs ds es : List Region} {o : Option Region} :
      CondensesPlain mask hs ds → CompactsEach mask ds es → Bites f es o → Turns mask (mk f hs) o

end

end Region

/-! ### No bound is reached -/

namespace Pattern

variable {mask : Option Pattern} {v : Pattern} {queue accepted out : List Pattern} {s : Sifted}

/-- A pattern that is put back in the queue has cost an accepted one, besides the one it came
from. -/
theorem measure_sift (hs : sift v mask accepted = .ok s) :
    s.accepted.length + s.survives.toNat + 2 * s.merged.toList.length ≤ accepted.length + 1 := by
  induction accepted generalizing s with
  | nil =>
    obtain rfl := Except.ok.inj hs
    simp
  | cons a rest ih =>
    obtain ⟨paired, -, hs⟩ := Checked.bind_eq_ok.1 hs
    cases paired with
    | neither =>
      obtain rfl := Except.ok.inj hs
      simp
      omega
    | first =>
      obtain rfl := Except.ok.inj hs
      simp
    | second => exact Nat.le_succ_of_le (ih hs)
    | both =>
      obtain ⟨t, ht, hs⟩ := Checked.bind_eq_ok.1 hs
      obtain rfl := Except.ok.inj hs
      have := ih ht
      simp only [List.length_cons]
      omega
    | merged m =>
      obtain rfl := Except.ok.inj hs
      simp

/-- **The queue is worked off before its bound is reached.** -/
theorem condenses_condenseQueue {steps : Nat} (hsteps : 2 * queue.length + accepted.length ≤ steps)
    (hout : condenseQueue mask steps queue accepted = .ok out) :
    Condenses mask queue accepted out := by
  induction steps generalizing queue accepted with
  | zero =>
    obtain rfl : queue = [] := List.eq_nil_of_length_eq_zero (by omega)
    obtain rfl := Except.ok.inj hout
    exact .done
  | succ steps ih =>
    cases queue with
    | nil =>
      obtain rfl := Except.ok.inj hout
      exact .done
    | cons v queue =>
      obtain ⟨s, hs, hout⟩ := Checked.bind_eq_ok.1 hout
      have hmeasure := measure_sift hs
      have hlen : (if s.survives then s.accepted ++ [v] else s.accepted).length =
          s.accepted.length + s.survives.toNat := by
        cases s.survives <;> simp
      refine .step hs (ih ?_ hout)
      rw [List.length_append, hlen]
      rw [List.length_cons] at hsteps
      omega

end Pattern

namespace Region

variable {mask : Option Pattern} {f v : Pattern} {r : Region} {rs qs hs : List Region}
  {o : Option Region} {n height : Nat}

/-- Condensing plain regions needs no bound. -/
theorem condensesPlain_condensePlain (hqs : condensePlain mask rs = .ok qs) :
    CondensesPlain mask rs qs := by
  rw [condensePlain] at hqs
  split at hqs
  · rename_i hlen
    obtain rfl := Except.ok.inj hqs
    exact .short hlen
  · rename_i hlen
    rw [List.partition_eq_filter_filter] at hqs
    obtain ⟨ps, hps, rfl⟩ := Checked.map_eq_ok.1 hqs
    exact .long hlen (Pattern.condenses_condenseQueue (Nat.le_refl _) hps)

/-- Clipping makes no list longer. -/
theorem length_clipList (hqs : clipList rs v = .ok qs) : qs.length ≤ rs.length := by
  induction rs generalizing qs with
  | nil =>
    rw [clipList] at hqs
    obtain rfl := Except.ok.inj hqs
    exact Nat.le_refl _
  | cons r rs ih =>
    obtain ⟨o, rest, -, hrest, rfl⟩ := clipList_cons_eq_ok.1 hqs
    have ho := Option.length_toList_le (o := o)
    have := ih hrest
    rw [List.length_append, List.length_cons]
    omega

/-- A list with one member less. -/
theorem length_swapRemove (rs : List Region) (j : Nat) :
    (swapRemove rs j).length = rs.length - 1 := by
  obtain rfl | ⟨init, l, rfl⟩ := List.eq_nil_or_concat rs
  · rfl
  · simp [swapRemove]

/-- **Every tight hole that is traded is gone**, so there are at most as many steps as holes. -/
theorem bites_bite {steps : Nat} (hsteps : hs.length ≤ steps) (ho : bite steps f hs = .ok o) :
    Bites f hs o := by
  induction steps generalizing f hs with
  | zero =>
    obtain rfl : hs = [] := List.eq_nil_of_length_eq_zero (by omega)
    obtain rfl := Except.ok.inj ho
    exact .loose rfl
  | succ steps ih =>
    rw [bite] at ho
    obtain ⟨found, hfound, ho⟩ := Checked.bind_eq_ok.1 ho
    obtain _ | ⟨j, m⟩ := found
    · obtain rfl := Except.ok.inj ho
      exact .loose hfound
    dsimp only at ho
    split at ho
    · rename_i hzero
      obtain rfl := Except.ok.inj ho
      exact .covered hfound hzero
    · rename_i hne
      obtain ⟨ds, hds, ho⟩ := Checked.bind_eq_ok.1 ho
      have hclip := length_clipList hds
      rw [length_swapRemove] at hclip
      exact .narrowed hfound hne hds (ih (by omega) ho)

/-- Compacting each hole needs no bound if compacting one needs none. -/
theorem compactsEach_compactEach {compact : Region → Checked (Option Region)}
    (hcompact : ∀ r ∈ rs, ∀ o, compact r = .ok o → Compacts mask r o)
    (hqs : compactEach compact rs = .ok qs) : CompactsEach mask rs qs := by
  induction rs generalizing qs with
  | nil =>
    obtain rfl := Except.ok.inj hqs
    exact .nil
  | cons r rs ih =>
    obtain ⟨o, ho, hqs⟩ := Checked.bind_eq_ok.1 hqs
    obtain ⟨rest, hrest, hqs⟩ := Checked.bind_eq_ok.1 hqs
    obtain rfl := Except.ok.inj hqs
    exact .cons (hcompact r List.mem_cons_self o ho)
      (ih (fun q hq ↦ hcompact q (List.mem_cons_of_mem _ hq)) hrest)

/-- A round whose recursion has no bound to fear is a round without bounds. -/
theorem turns_round (hr : r.Every (·.bytes = n)) (hheight : r.height ≤ height + 1)
    (hcompact : ∀ d : Region, d.Every (·.bytes = n) → d.height ≤ height →
      ∀ o, compactAt mask height d = .ok o → Compacts mask d o)
    (ho : round mask (compactAt mask height) r = .ok o) : Turns mask r o := by
  obtain ⟨f, hs⟩ := r
  obtain ⟨-, hhs⟩ := every_mk.1 hr
  obtain ⟨ds, hds, ho⟩ := Checked.bind_eq_ok.1 ho
  obtain ⟨es, hes, ho⟩ := Checked.bind_eq_ok.1 ho
  obtain ⟨ds', hds', hkeeps⟩ := condensePlain_keeps mask hhs
  obtain rfl := Except.ok.inj (hds.symm.trans hds')
  have hlow : heightList ds ≤ height + 1 := Nat.le_trans hkeeps.height_le (height_mk ▸ hheight)
  have heach := compactsEach_compactEach
    (fun d hd ↦ hcompact d (everyOf_iff.1 (hkeeps.bytes n hhs) d hd)
    (Nat.lt_succ_iff.1 (heightList_le_iff.1 hlow d hd))) hes
  exact .round (condensesPlain_condensePlain hds) heach (bites_bite (Nat.le_refl _) ho)

/-- Rounds that make holes fewer come to an end before their bound does. -/
theorem compacts_settle {step : Region → Checked (Option Region)} {P : Region → Prop} {k : Nat}
    (hwanes : Wanes step) (hturns : ∀ r, P r → ∀ o, step r = .ok o → Turns mask r o)
    (hkeeps : ∀ r, P r → ∀ q, step r = .ok (some q) → P q) (hr : P r) (hk : r.countHoles + 2 ≤ k)
    (ho : settle step k r = .ok o) : Compacts mask r o := by
  induction k generalizing r with
  | zero => omega
  | succ k ih =>
    rw [settle] at ho
    obtain ⟨o', ho', ho⟩ := Checked.bind_eq_ok.1 ho
    have hturn := hturns r hr o' ho'
    cases o' with
    | none =>
      obtain rfl := Except.ok.inj ho
      exact .empty hturn
    | some r' =>
      dsimp only at ho
      split at ho
      · rename_i heq
        obtain rfl := Except.ok.inj ho
        rw [heq] at hturn ⊢
        exact .stable hturn
      · rename_i hne
        obtain ⟨hshrinks, hsame⟩ := hwanes r r' ho'
        have hle := hshrinks.le
        by_cases heq : r'.countHoles = r.countHoles
        · -- the next round is the last
          obtain ⟨k, rfl⟩ : ∃ i, k = i + 1 := ⟨k - 1, by omega⟩
          rw [settle, hsame heq, Checked.ok_bind] at ho
          simp only [if_true] at ho
          obtain rfl := Except.ok.inj ho
          exact .again hturn hne (.stable (hturns r' (hkeeps r hr r' ho') _ (hsame heq)))
        · exact .again hturn hne (ih (hkeeps r hr r' ho') (by omega) ho)

/-- **Compacting is what its loops do without any bound.** -/
theorem compacts_compactAt (hr : r.Every (·.bytes = n)) (hheight : r.height ≤ height)
    (ho : compactAt mask height r = .ok o) : Compacts mask r o := by
  induction height generalizing r o with
  | zero =>
    obtain ⟨f, hs⟩ := r
    obtain rfl := Except.ok.inj ho
    rw [height_mk, Nat.le_zero, heightList_eq_zero_iff] at hheight
    subst hheight
    exact .stable (.round (.short (by simp)) .nil (.loose rfl))
  | succ height ih =>
    have hweight := countHoles_lt_weight r
    refine compacts_settle (P := fun r ↦ r.Every (·.bytes = n) ∧ r.height ≤ height + 1)
      (wanes_round (settled_compactAt height))
      (fun q hq _ ↦ turns_round hq.1 hq.2 fun d hd hlow _ ↦ ih hd hlow) (fun q hq q' hq' ↦ ?_)
      ⟨hr, hheight⟩ (by omega) ho
    obtain ⟨o', ho', hsettles⟩ : ∃ o, round mask (compactAt mask height) q = .ok o ∧ Settles q o :=
      round_settles (fun d hd ↦ compactAt_settles hd) hq.1
    obtain rfl := Except.ok.inj (ho'.symm.trans hq')
    have hlow := hsettles.height_le
    have hbytes := hsettles.bytes n (everyOf_cons.2 ⟨hq.1, everyOf_nil⟩)
    simp only [Option.toList_some, heightList_cons, heightList_nil] at hlow
    exact ⟨(everyOf_cons.1 hbytes).1, by omega⟩

end Region

end HeaderFlow
