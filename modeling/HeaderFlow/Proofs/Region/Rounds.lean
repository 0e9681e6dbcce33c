import Mathlib.Data.List.Forall2
import Mathlib.Data.List.Perm.Basic
import HeaderFlow.Proofs.Checked
import HeaderFlow.Region.Compact

/-!
# Rounds of compacting come to an end

The bound on the rounds is never reached. What shows it is the number of holes, at every depth: a
round drops holes, merges them, trades them for a smaller frame or clips them away, and never makes
one. **A round that leaves their number as it was has at most moved plain holes to the front**, and
the round after it changes nothing. So two rounds more than there are holes are enough
(`settle_eq`), and what comes out is left as it is by one more round (`settle_stable`).

Nothing is asked of widths here. A computation that breaks a precondition has no answer, and only
answers are spoken of.

## Each step loses holes or does nothing

For every step there is a lemma of the same shape: the holes that come out are no more than those
that went in, and if they are as many, then nothing was changed, or nothing but the order.

* `length_condense`: condensing makes a list of patterns shorter or leaves it.
* `countHoles_clip`: clipping makes no holes.
* `countHoles_bite`: biting loses a hole or changes nothing.
* `countHolesList_condensePlain`: condensing the plain holes, which also puts them in front of the
  others.

The recursion into the other holes is put in as an assumption (`Settled`): compacting one of them
makes no holes, and what comes out is left alone. Induction on depth gives it in the end
(`settled_compactAt`). If no hole is lost, each of those holes was left with its frame
(`Resembles`), so the next round finds what this one did.
-/

namespace HeaderFlow

/-- What holds of the members of one list holds of those of a related one. -/
theorem forall_mem_of_forall₂ {α β : Type} {R : α → β → Prop} {P : α → Prop} {Q : β → Prop}
    {as : List α} {bs : List β} (h : List.Forall₂ R as bs) (hPQ : ∀ a b, R a b → P a → Q b)
    (has : ∀ a ∈ as, P a) : ∀ b ∈ bs, Q b := by
  induction h with
  | nil => simp
  | cons hab _ ih =>
    obtain ⟨ha, has⟩ := List.forall_mem_cons.1 has
    exact List.forall_mem_cons.2 ⟨hPQ _ _ hab ha, ih has⟩

namespace Pattern

variable {mask : Option Pattern} {v : Pattern} {queue accepted out : List Pattern} {s : Sifted}

/-- **A comparison loses a pattern or changes nothing.** -/
theorem length_sift (hs : sift v mask accepted = .ok s) :
    s.accepted.length + s.survives.toNat + s.merged.toList.length ≤ accepted.length + 1 ∧
    (s.accepted.length + s.survives.toNat + s.merged.toList.length = accepted.length + 1 →
      s = ⟨accepted, true, none⟩) := by
  induction accepted generalizing s with
  | nil =>
    obtain rfl := Except.ok.inj hs
    simp
  | cons a rest ih =>
    obtain ⟨paired, -, hs⟩ := Checked.bind_eq_ok.1 hs
    cases paired with
    | neither =>
      obtain rfl := Except.ok.inj hs
      simp
      omega
    | first =>
      obtain rfl := Except.ok.inj hs
      simp
    | second =>
      have := (ih hs).1
      rw [List.length_cons]
      exact ⟨by omega, fun heq ↦ by omega⟩
    | both =>
      obtain ⟨t, ht, hs⟩ := Checked.bind_eq_ok.1 hs
      obtain rfl := Except.ok.inj hs
      obtain ⟨hle, heq⟩ := ih ht
      simp only [List.length_cons]
      refine ⟨by omega, fun hsame ↦ ?_⟩
      rw [heq (by omega)]
    | merged m =>
      obtain rfl := Except.ok.inj hs
      simp

/-- **Working off the queue loses patterns or appends it as it is.** -/
theorem length_condenseQueue {steps : Nat}
    (hout : condenseQueue mask steps queue accepted = .ok out) :
    out.length ≤ queue.length + accepted.length ∧
    (out.length = queue.length + accepted.length → out = accepted ++ queue) := by
  induction steps generalizing queue accepted with
  | zero =>
    obtain rfl := Except.ok.inj hout
    refine ⟨by omega, fun heq ↦ ?_⟩
    obtain rfl : queue = [] := List.eq_nil_of_length_eq_zero (by omega)
    exact (List.append_nil _).symm
  | succ steps ih =>
    cases queue with
    | nil =>
      obtain rfl := Except.ok.inj hout
      exact ⟨by simp, fun _ ↦ (List.append_nil _).symm⟩
    | cons v queue =>
      obtain ⟨s, hs, hout⟩ := Checked.bind_eq_ok.1 hout
      obtain ⟨hle, hsame⟩ := length_sift hs
      obtain ⟨hle', hsame'⟩ := ih hout
      have hlen : (if s.survives then s.accepted ++ [v] else s.accepted).length =
          s.accepted.length + s.survives.toNat := by
        cases s.survives <;> simp
      rw [List.length_append, hlen] at hle' hsame'
      rw [List.length_cons]
      refine ⟨by omega, fun heq ↦ ?_⟩
      obtain rfl := hsame (by omega)
      simpa using hsame' (by simp; omega)

/-- **Condensing makes a list shorter or leaves it as it is.** -/
theorem length_condense {input : List Pattern} (hout : condense mask input = .ok out) :
    out.length ≤ input.length ∧ (out.length = input.length → out = input) := by
  obtain ⟨hle, hsame⟩ := length_condenseQueue hout
  have hfilter := List.length_filter_le (fun v : Pattern ↦ !v.hasConflict) input
  rw [List.length_nil, Nat.add_zero] at hle hsame
  refine ⟨by omega, fun heq ↦ ?_⟩
  rw [hsame (by omega), List.nil_append]
  exact List.length_filter_eq_length_iff.1 (by omega) |> List.filter_eq_self.2

end Pattern

namespace Region

variable {mask : Option Pattern} {f v : Pattern} {r r' q : Region} {rs qs ps : List Region}
  {k k' : Nat} {compact step : Region → Checked (Option Region)}

/-! ### Counting holes -/

@[simp] theorem countHoles_mk {hs : List Region} : (mk f hs).countHoles = countHolesList hs := by
  rw [countHoles]

/-- The holes of a region are those in the list of its holes. -/
theorem countHoles_eq (r : Region) : r.countHoles = countHolesList r.holes := by
  cases r
  exact countHoles_mk

@[simp] theorem countHolesList_nil : countHolesList [] = 0 := by
  rw [countHolesList]

@[simp] theorem countHolesList_cons :
    countHolesList (r :: rs) = r.countHoles + 1 + countHolesList rs := by
  rw [countHolesList]

@[simp] theorem countHolesList_append :
    countHolesList (rs ++ qs) = countHolesList rs + countHolesList qs := by
  induction rs with
  | nil => simp
  | cons r rs ih =>
    rw [List.cons_append, countHolesList_cons, countHolesList_cons, ih]
    omega

/-- The order of a list does not matter. -/
theorem countHolesList_perm (h : rs.Perm qs) : countHolesList rs = countHolesList qs := by
  induction h with
  | nil => rfl
  | cons r _ ih => rw [countHolesList_cons, countHolesList_cons, ih]
  | swap r q rs =>
    simp only [countHolesList_cons]
    omega
  | trans _ _ ih ih' => exact ih.trans ih'

/-- Only the empty list has no holes to count. -/
theorem countHolesList_eq_zero : countHolesList rs = 0 ↔ rs = [] := by
  cases rs <;> simp

/-- A region is plain if it has no hole. -/
theorem isPlain_iff_countHoles : r.isPlain = true ↔ r.countHoles = 0 := by
  rw [isPlain, List.isEmpty_iff, countHoles_eq, countHolesList_eq_zero]

/-- Plain regions count as one hole each. -/
theorem countHolesList_of_plain (hrs : ∀ r ∈ rs, r.isPlain = true) :
    countHolesList rs = rs.length := by
  induction rs with
  | nil => simp
  | cons r rs ih =>
    obtain ⟨hr, hrs⟩ := List.forall_mem_cons.1 hrs
    rw [countHolesList_cons, isPlain_iff_countHoles.1 hr, ih hrs, List.length_cons]
    omega

theorem isPlain_map_plain (ps : List Pattern) : ∀ r ∈ ps.map plain, r.isPlain = true := by
  intro r hr
  obtain ⟨p, -, rfl⟩ := List.mem_map.1 hr
  rfl

/-- A plain region is its frame. -/
theorem eq_plain_of_isPlain (hr : r.isPlain = true) : r = plain r.frame := by
  obtain ⟨f, hs⟩ := r
  rw [isPlain, List.isEmpty_iff] at hr
  exact congrArg (mk f) hr

/-- Leaving out some members loses all the holes in them. -/
theorem countHolesList_filter (p : Region → Bool) (rs : List Region) :
    countHolesList (rs.filter p) ≤ countHolesList rs ∧
    (countHolesList (rs.filter p) = countHolesList rs → ∀ r ∈ rs, p r = true) := by
  induction rs with
  | nil => simp
  | cons r rs ih =>
    rw [List.filter_cons, List.forall_mem_cons]
    split
    · rename_i hr
      simp only [countHolesList_cons]
      exact ⟨by omega, fun heq ↦ ⟨hr, ih.2 (by omega)⟩⟩
    · simp only [countHolesList_cons]
      exact ⟨by omega, fun heq ↦ by omega⟩

/-- Plain regions and others, counted apart. -/
theorem countHolesList_partition (rs : List Region) :
    countHolesList (rs.filter isPlain) + countHolesList (rs.filter fun r ↦ !r.isPlain) =
      countHolesList rs := by
  rw [← countHolesList_append]
  exact countHolesList_perm (List.filter_append_perm ..)

/-- A region has at least as much weight as it has holes. -/
theorem countHoles_lt_weight (r : Region) : r.countHoles < r.weight := by
  refine @Region.rec (fun r ↦ r.countHoles < r.weight) (fun rs ↦ countHolesList rs ≤ weightList rs)
    (fun f hs ih ↦ ?_) ?_ (fun r rs ihr ihrs ↦ ?_) r
  · rw [countHoles_mk, weight]
    omega
  · simp
  · rw [countHolesList_cons, weightList]
    omega

/-! ### What becomes of the holes -/

/-- Clipping makes no holes. -/
theorem countHoles_clip {o : Option Region} (ho : r.clip v = .ok o) :
    countHolesList o.toList ≤ r.countHoles + 1 := by
  refine @Region.rec (fun r ↦ ∀ v o, r.clip v = .ok o → countHolesList o.toList ≤ r.countHoles + 1)
    (fun rs ↦ ∀ v out, clipList rs v = .ok out → countHolesList out ≤ countHolesList rs)
    (fun f hs ih v o ho ↦ ?_) (fun v out hout ↦ ?_) (fun r rs ihr ihrs v out hout ↦ ?_) r v o ho
  · rw [clip] at ho
    obtain ⟨o', -, ho⟩ := Checked.bind_eq_ok.1 ho
    cases o' with
    | none =>
      obtain rfl := Except.ok.inj ho
      simp
    | some g =>
      obtain ⟨ds, hds, ho⟩ := Checked.bind_eq_ok.1 ho
      obtain rfl := Except.ok.inj ho
      simpa using ih g ds hds
  · rw [clipList] at hout
    obtain rfl := Except.ok.inj hout
    exact Nat.le_refl _
  · rw [clipList] at hout
    obtain ⟨o', ho', hout⟩ := Checked.bind_eq_ok.1 hout
    obtain ⟨ds, hds, hout⟩ := Checked.bind_eq_ok.1 hout
    obtain rfl := Except.ok.inj hout
    have hr := ihr v o' ho'
    have hrs := ihrs v ds hds
    rw [countHolesList_append, countHolesList_cons]
    omega

/-- Clipping a list makes no holes. -/
theorem countHolesList_clipList (hqs : clipList rs v = .ok qs) :
    countHolesList qs ≤ countHolesList rs := by
  induction rs generalizing qs with
  | nil =>
    rw [clipList] at hqs
    obtain rfl := Except.ok.inj hqs
    exact Nat.le_refl _
  | cons r rs ih =>
    rw [clipList] at hqs
    obtain ⟨o, ho, hqs⟩ := Checked.bind_eq_ok.1 hqs
    obtain ⟨ds, hds, hqs⟩ := Checked.bind_eq_ok.1 hqs
    obtain rfl := Except.ok.inj hqs
    have hr := countHoles_clip ho
    have hrs := ih hds
    rw [countHolesList_append, countHolesList_cons]
    omega

/-- A member goes, whichever place is named. -/
theorem countHolesList_swapRemove_lt (hne : rs ≠ []) (j : Nat) :
    countHolesList (swapRemove rs j) < countHolesList rs := by
  obtain rfl | ⟨init, l, rfl⟩ := List.eq_nil_or_concat rs
  · exact absurd rfl hne
  rw [List.concat_eq_append, swapRemove, List.getLast?_concat, countHolesList_append]
  dsimp only
  have hl : 0 < countHolesList [l] := by
    rw [countHolesList_cons]
    omega
  by_cases hj : j < init.length
  · rw [List.set_append_left _ _ hj, List.dropLast_concat,
      countHolesList_perm (List.set_perm_cons_eraseIdx hj l), countHolesList_cons]
    have hperm := countHolesList_perm (List.getElem_cons_eraseIdx_perm hj)
    rw [countHolesList_cons] at hperm
    rw [countHolesList_cons, countHolesList_nil]
    omega
  · rw [List.set_append_right _ _ (Nat.le_of_not_lt hj)]
    cases h : j - init.length with
    | zero =>
      rw [List.set_cons_zero, List.dropLast_concat]
      omega
    | succ i =>
      rw [List.set_cons_succ, List.set_nil, List.dropLast_concat]
      omega

/-- **Letting holes bite loses a hole or changes nothing.** -/
theorem countHoles_bite {steps : Nat} {hs : List Region} (ho : bite steps f hs = .ok (some r)) :
    r.countHoles ≤ countHolesList hs ∧ (r.countHoles = countHolesList hs → r = mk f hs) := by
  induction steps generalizing f hs with
  | zero =>
    obtain rfl := Option.some.inj (Except.ok.inj ho)
    simp
  | succ steps ih =>
    rw [bite] at ho
    obtain ⟨o, ho', ho⟩ := Checked.bind_eq_ok.1 ho
    obtain _ | ⟨j, n⟩ := o
    · obtain rfl := Option.some.inj (Except.ok.inj ho)
      simp
    dsimp only at ho
    split at ho
    · cases ho
    obtain ⟨ds, hds, ho⟩ := Checked.bind_eq_ok.1 ho
    have hne : hs ≠ [] := by
      rintro rfl
      cases ho'
    have hswap := countHolesList_swapRemove_lt hne j
    have hclip := countHolesList_clipList hds
    have hrest := (ih ho).1
    exact ⟨by omega, fun heq ↦ by omega⟩

/-- What compacting may do to a region: it makes no holes, and keeps the frame if it loses none. -/
structure Shrinks (r q : Region) : Prop where
  le : q.countHoles ≤ r.countHoles
  frame : q.countHoles = r.countHoles → q.frame = r.frame

/-- Nothing was done. -/
theorem Shrinks.refl (r : Region) : Shrinks r r := ⟨Nat.le_refl _, fun _ ↦ rfl⟩

/-- Steps follow each other. -/
theorem Shrinks.trans (h : Shrinks r r') (h' : Shrinks r' q) : Shrinks r q := by
  have hle := h.le
  have hle' := h'.le
  exact ⟨by omega, fun heq ↦ (h'.frame (by omega)).trans (h.frame (by omega))⟩

/-- Compacting a region gives a smaller one that it leaves as it is. -/
def Settled (compact : Region → Checked (Option Region)) : Prop :=
  ∀ r q, compact r = .ok (some q) → Shrinks r q ∧ compact q = .ok (some q)

/-- Compacting each hole makes none, and if none is lost, all of them are left alone afterwards. -/
theorem countHolesList_compactEach (hcompact : Settled compact)
    (hqs : compactEach compact rs = .ok qs) :
    countHolesList qs ≤ countHolesList rs ∧ (countHolesList qs = countHolesList rs →
      List.Forall₂ (fun r q ↦ compact r = .ok (some q) ∧ q.countHoles = r.countHoles) rs qs) := by
  induction rs generalizing qs with
  | nil =>
    obtain rfl := Except.ok.inj hqs
    exact ⟨Nat.le_refl _, fun _ ↦ .nil⟩
  | cons r rs ih =>
    obtain ⟨o, ho, hqs⟩ := Checked.bind_eq_ok.1 hqs
    obtain ⟨ds, hds, hqs⟩ := Checked.bind_eq_ok.1 hqs
    obtain rfl := Except.ok.inj hqs
    obtain ⟨hle, heach⟩ := ih hds
    rw [countHolesList_append, countHolesList_cons]
    cases o with
    | none =>
      rw [Option.toList_none, countHolesList_nil]
      exact ⟨by omega, fun heq ↦ by omega⟩
    | some q =>
      have hq := (hcompact r q ho).1.le
      rw [Option.toList_some, countHolesList_cons, countHolesList_nil]
      exact ⟨by omega, fun heq ↦ .cons ⟨ho, by omega⟩ (heach (by omega))⟩

/-- Holes that are left alone one by one are left alone. -/
theorem compactEach_eq_self (hqs : ∀ q ∈ qs, compact q = .ok (some q)) :
    compactEach compact qs = .ok qs := by
  induction qs with
  | nil => rfl
  | cons q qs ih =>
    obtain ⟨hq, hqs⟩ := List.forall_mem_cons.1 hqs
    rw [compactEach, hq, ih hqs]
    rfl

/-! ### Plain holes -/

/-- The regions have the same frames and equally many holes. -/
def Resembles : List Region → List Region → Prop :=
  List.Forall₂ fun q p ↦ p.frame = q.frame ∧ p.countHoles = q.countHoles

/-- What resembles plain regions is the same. -/
theorem Resembles.split {others : List Region} {out : List Pattern}
    (h : Resembles (out.map plain ++ others) ps) :
    ∃ rest, ps = out.map plain ++ rest ∧ Resembles others rest := by
  induction out generalizing ps with
  | nil => exact ⟨ps, rfl, h⟩
  | cons p out ih =>
    cases h with
    | cons hp h =>
      rename_i q ps
      obtain ⟨rest, rfl, hrest⟩ := ih h
      obtain rfl : q = plain p := by
        rw [eq_plain_of_isPlain
          (isPlain_iff_countHoles.2 (hp.2.trans (isPlain_iff_countHoles.1 rfl))), hp.1]
        rfl
      exact ⟨rest, rfl, hrest⟩

/-- Plain regions in front are found in front. -/
theorem partition_plain {rest : List Region} (out : List Pattern)
    (hrest : ∀ r ∈ rest, r.isPlain = false) :
    (out.map plain ++ rest).partition isPlain = (out.map plain, rest) := by
  have hout := isPlain_map_plain out
  have hfirst : (out.map plain).filter isPlain = out.map plain := List.filter_eq_self.2 hout
  have hsecond : rest.filter isPlain = [] :=
    List.filter_eq_nil_iff.2 fun r hr ↦ by simp [hrest r hr]
  have hthird : (out.map plain).filter (not ∘ isPlain) = [] :=
    List.filter_eq_nil_iff.2 fun r hr ↦ by simp [hout r hr]
  have hfourth : rest.filter (not ∘ isPlain) = rest :=
    List.filter_eq_self.2 fun r hr ↦ by simp [hrest r hr]
  rw [List.partition_eq_filter_filter, List.filter_append, List.filter_append, hfirst, hsecond,
    hthird, hfourth, List.append_nil, List.nil_append]

/-- Of less than two regions only those without a header are dropped. -/
theorem condensePlain_of_short (hlen : rs.length < 2)
    (hclean : ∀ r ∈ rs, (!r.frame.hasConflict) = true) (hps : Resembles rs ps) :
    condensePlain mask ps = .ok ps := by
  have hclean' : ∀ p ∈ ps, (!p.frame.hasConflict) = true :=
    forall_mem_of_forall₂ hps (fun r p hp hr ↦ by rwa [hp.1]) hclean
  rw [condensePlain, if_pos (List.Forall₂.length_eq hps ▸ hlen), List.filter_eq_self.2 hclean']

/-- Of more regions the plain ones are condensed, so that nothing happens where they already are. -/
theorem condensePlain_of_condensed {others : List Region} {out : List Pattern}
    (hout : Pattern.condense mask out = .ok out) (hothers : ∀ r ∈ others, r.isPlain = false)
    (hlen : ¬ (out.map plain ++ others).length < 2) (hps : Resembles (out.map plain ++ others) ps) :
    condensePlain mask ps = .ok ps := by
  have hlen' : ¬ ps.length < 2 := List.Forall₂.length_eq hps ▸ hlen
  obtain ⟨rest, rfl, hrest⟩ := Resembles.split hps
  have hrest' : ∀ r ∈ rest, r.isPlain = false := by
    refine forall_mem_of_forall₂ hrest (fun r q hq hr ↦ ?_) hothers
    rw [← Bool.not_eq_true, isPlain_iff_countHoles] at hr ⊢
    rwa [hq.2]
  have hframes : (out.map plain).map frame = out := by
    rw [List.map_map]
    exact List.map_id'' (fun _ ↦ rfl) out
  rw [condensePlain, if_neg hlen', partition_plain out hrest']
  dsimp only
  rw [hframes, hout]
  rfl

/-- **Condensing makes no holes**, and if it loses none, then it leaves alone what resembles its
result. -/
theorem countHolesList_condensePlain (hqs : condensePlain mask rs = .ok qs) :
    countHolesList qs ≤ countHolesList rs ∧ (countHolesList qs = countHolesList rs →
      ∀ ps, Resembles qs ps → condensePlain mask ps = .ok ps) := by
  rw [condensePlain] at hqs
  split at hqs
  · rename_i hlen
    obtain rfl := Except.ok.inj hqs
    obtain ⟨hle, hsame⟩ := countHolesList_filter (fun r ↦ !r.frame.hasConflict) rs
    refine ⟨hle, fun heq ps hps ↦ ?_⟩
    have hclean := hsame heq
    rw [List.filter_eq_self.2 hclean] at hps
    exact condensePlain_of_short hlen hclean hps
  · rename_i hlen
    rw [List.partition_eq_filter_filter] at hqs
    obtain ⟨out, hout, rfl⟩ := Checked.map_eq_ok.1 hqs
    obtain ⟨hle, hsame⟩ := Pattern.length_condense hout
    have hparts := countHolesList_partition rs
    have hplains : countHolesList (rs.filter isPlain) = (rs.filter isPlain).length :=
      countHolesList_of_plain fun r hr ↦ (List.mem_filter.1 hr).2
    have houts : countHolesList (out.map plain) = out.length := by
      rw [countHolesList_of_plain (isPlain_map_plain out), List.length_map]
    have hnot : (rs.filter fun r ↦ !r.isPlain) = rs.filter (not ∘ isPlain) := rfl
    rw [hnot] at hparts
    rw [List.length_map] at hle hsame
    rw [countHolesList_append, houts]
    refine ⟨by omega, fun heq ps hps ↦ ?_⟩
    have hsame := hsame (by omega)
    rw [← hsame] at hout
    refine condensePlain_of_condensed hout
      (fun r hr ↦ by simpa using (List.mem_filter.1 hr).2) ?_ hps
    have hsplit := List.length_eq_length_filter_add (l := rs) isPlain
    rw [hnot] at hsplit
    rw [List.length_append, hsame, List.length_map, List.length_map]
    omega

/-! ### Rounds -/

/-- **A round that loses no hole leaves a region on which none of its steps does anything.** -/
theorem holes_of_round (hcompact : Settled compact) (hr : round mask compact r = .ok (some r'))
    (heq : r'.countHoles = r.countHoles) :
    r'.frame = r.frame ∧ condensePlain mask r'.holes = .ok r'.holes ∧
      (∀ d ∈ r'.holes, compact d = .ok (some d)) ∧
      bite r'.holes.length r'.frame r'.holes = .ok (some r') := by
  obtain ⟨ds, hds, hr⟩ := Checked.bind_eq_ok.1 hr
  obtain ⟨es, hes, hr⟩ := Checked.bind_eq_ok.1 hr
  obtain ⟨hcondense, hstable⟩ := countHolesList_condensePlain hds
  obtain ⟨heach, hsame⟩ := countHolesList_compactEach hcompact hes
  obtain ⟨hbite, hunbitten⟩ := countHoles_bite hr
  rw [← countHoles_eq] at hcondense hstable
  -- nothing was bitten off, so that the holes of the result are those that were compacted
  obtain rfl := hunbitten (by omega)
  have hforall := hsame (by omega)
  have hresembles : Resembles ds es := hforall.imp fun d e he ↦
    ⟨(hcompact d e he.1).1.frame he.2, he.2⟩
  have hcompacted : ∀ e ∈ es, compact e = .ok (some e) :=
    forall_mem_of_forall₂ hforall (P := fun _ ↦ True) (fun d e he _ ↦ (hcompact d e he.1).2)
      fun _ _ ↦ trivial
  exact ⟨rfl, hstable (by omega) es hresembles, hcompacted, hr⟩

/-- A round changes nothing if none of its steps does. -/
theorem round_of_holes (hcondense : condensePlain mask r.holes = .ok r.holes)
    (hcompact : ∀ d ∈ r.holes, compact d = .ok (some d))
    (hbite : bite r.holes.length r.frame r.holes = .ok (some r)) :
    round mask compact r = .ok (some r) := by
  rw [round, hcondense, Checked.ok_bind, compactEach_eq_self hcompact, Checked.ok_bind, hbite]

/-- **A round makes no holes. One that loses none is followed by one that changes nothing.** -/
theorem shrinks_round (hcompact : Settled compact) (hr : round mask compact r = .ok (some r')) :
    Shrinks r r' ∧ (r'.countHoles = r.countHoles → round mask compact r' = .ok (some r')) := by
  refine ⟨⟨?_, fun heq ↦ (holes_of_round hcompact hr heq).1⟩, fun heq ↦ ?_⟩
  · obtain ⟨ds, hds, hr⟩ := Checked.bind_eq_ok.1 hr
    obtain ⟨es, hes, hr⟩ := Checked.bind_eq_ok.1 hr
    have hcondense := (countHolesList_condensePlain hds).1
    have heach := (countHolesList_compactEach hcompact hes).1
    have hbite := (countHoles_bite hr).1
    rw [← countHoles_eq] at hcondense
    omega
  · obtain ⟨-, hcondense, hholes, hbite⟩ := holes_of_round hcompact hr heq
    exact round_of_holes hcondense hholes hbite

/-- What a round does: it makes no holes, and if it loses none, the next one changes nothing. -/
def Wanes (step : Region → Checked (Option Region)) : Prop :=
  ∀ r r', step r = .ok (some r') → Shrinks r r' ∧
    (r'.countHoles = r.countHoles → step r' = .ok (some r'))

/-- **Two rounds more than there are holes are enough.** -/
theorem settle_eq (hstep : Wanes step) (hk : r.countHoles + 2 ≤ k) (hk' : r.countHoles + 2 ≤ k') :
    settle step k r = settle step k' r := by
  induction k generalizing k' r with
  | zero => omega
  | succ k ih =>
    obtain ⟨k', rfl⟩ : ∃ j, k' = j + 1 := ⟨k' - 1, by omega⟩
    rw [settle, settle]
    cases ho : step r with
    | error e => rfl
    | ok o =>
      cases o with
      | none => rfl
      | some r' =>
        simp only [Checked.ok_bind]
        split
        · rfl
        obtain ⟨hshrinks, hsame⟩ := hstep r r' ho
        have hle := hshrinks.le
        by_cases heq : r'.countHoles = r.countHoles
        · -- the next round changes nothing
          obtain ⟨j, rfl⟩ : ∃ j, k = j + 1 := ⟨k - 1, by omega⟩
          obtain ⟨j', rfl⟩ : ∃ j, k' = j + 1 := ⟨k' - 1, by omega⟩
          simp [settle, hsame heq]
        · exact ih (by omega) (by omega)

/-- **What comes out of all rounds is left as it is by one more.** -/
theorem settle_stable (hstep : Wanes step) (hk : r.countHoles + 2 ≤ k)
    (hq : settle step k r = .ok (some q)) : Shrinks r q ∧ step q = .ok (some q) := by
  induction k generalizing r with
  | zero => omega
  | succ k ih =>
    rw [settle] at hq
    obtain ⟨o, ho, hq⟩ := Checked.bind_eq_ok.1 hq
    cases o with
    | none => cases hq
    | some r' =>
      obtain ⟨hshrinks, hsame⟩ := hstep r r' ho
      have hle := hshrinks.le
      dsimp only at hq
      split at hq
      · rename_i heq
        obtain rfl := Option.some.inj (Except.ok.inj hq)
        exact ⟨hshrinks, heq ▸ (heq ▸ ho)⟩
      by_cases heq : r'.countHoles = r.countHoles
      · -- one more round, and it changes nothing
        obtain ⟨j, rfl⟩ : ∃ j, k = j + 1 := ⟨k - 1, by omega⟩
        rw [settle, hsame heq, Checked.ok_bind] at hq
        simp only [if_true] at hq
        obtain rfl := Option.some.inj (Except.ok.inj hq)
        exact ⟨hshrinks, hsame heq⟩
      · obtain ⟨hshrinks', hq⟩ := ih (by omega) hq
        exact ⟨hshrinks.trans hshrinks', hq⟩

/-- A round wanes if compacting the holes settles. -/
theorem wanes_round (hcompact : Settled compact) : Wanes (round mask compact) := fun _ _ hr ↦
  shrinks_round hcompact hr

/-- **Compacting settles, at every depth.** -/
theorem settled_compactAt (height : Nat) : Settled (compactAt mask height) := by
  induction height with
  | zero =>
    intro r q hq
    obtain rfl := Option.some.inj (Except.ok.inj hq)
    exact ⟨.refl _, rfl⟩
  | succ height ih =>
    intro r q hq
    have hweight := countHoles_lt_weight r
    obtain ⟨hshrinks, hq⟩ := settle_stable (wanes_round ih) (by omega) hq
    refine ⟨hshrinks, ?_⟩
    rw [compactAt, settle, hq, Checked.ok_bind]
    exact if_pos rfl

/-- **The bound on the rounds is never reached**: any other that leaves two rounds more than there
are holes gives the same. -/
theorem compactAt_succ {height : Nat} (hk : r.countHoles + 2 ≤ k) :
    compactAt mask (height + 1) r = settle (round mask (compactAt mask height)) k r := by
  have hweight := countHoles_lt_weight r
  exact settle_eq (wanes_round (settled_compactAt height)) (by omega) hk

end Region

end HeaderFlow
