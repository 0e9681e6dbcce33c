import HeaderFlow.Proofs.Pattern.Tritwise

/-!
# The parts of a complement

The complement of a pattern is built in one pass over the positions, which carries the concrete
trits seen so far and, at each of them, emits what it carries with that trit flipped. So the parts
are numbered by the concrete trits, and `getElem?_complementFrom` says of each part what it allows:
**the `k`-th part copies the concrete trits before the `k`-th, flips that one and is wild
elsewhere**.

All else is read off there. Of two parts the later one copies the very trit that the earlier one
flips, hence no header matches both (`pairwise_complement`). That the parts leave out exactly the
pattern itself was seen before (`exists_mem_complement`), and there is one part for each concrete
trit (`length_complement`).

The invariant of the pass is that what is carried has the concrete trits of the pattern before the
current position and is wild from there on. It is stated about a pass that starts anywhere with
anything carried, since that is what the recursion goes through; only at the start is nothing
carried. A pattern with a conflict does not go through the pass at all: nothing matches it, so its
complement is the pattern of wildcards.
-/

namespace HeaderFlow.Pattern

variable {p q copied : Pattern} {rest : List Nat} {i j k : Nat}

/-- The positions of the concrete trits, in order. -/
def concretePositions (p : Pattern) : List Nat :=
  (List.range p.width).filter fun i ↦ (p.trit i).isConcrete

/-- No header matches both patterns. -/
def Excludes (p q : Pattern) : Prop := ∀ h, p.Matches h → ¬ q.Matches h

/-- The patterns of the list divide up what `p` leaves over, one for each concrete trit of `p`. -/
structure DividesRest (p : Pattern) (parts : List Pattern) : Prop where
  /-- No part has a conflict, and all have the length of `p`. -/
  solid : ∀ c ∈ parts, c.Solid p.bytes
  /-- No header matches two parts. -/
  pairwise : parts.Pairwise Excludes
  /-- No header matches both `p` and a part. -/
  apart : ∀ c ∈ parts, Excludes p c
  /-- Every header matches `p` or a part. -/
  covers : ∀ h, p.Matches h ∨ ∃ c ∈ parts, c.Matches h
  /-- There are as many parts as `p` has concrete trits. -/
  length : parts.length = (List.range p.width).countP fun i ↦ (p.trit i).isConcrete
  /-- The part with the number of a concrete trit copies those before, flips this one and is wild
  elsewhere. -/
  reads : ∀ k i, p.concretePositions[k]? = some i →
    ∃ c : Pattern, parts[k]? = some c ∧ c.Reads p.bytes fun j ↦
    if j = i then (p.trit i).flip else if j ∈ p.concretePositions.take k then p.trit j else .wild

theorem isConcrete_of_mem_concretePositions (hi : i ∈ p.concretePositions) :
    (p.trit i).isConcrete = true :=
  (List.mem_filter.1 hi).2

/-- No position is counted twice. -/
theorem nodup_concretePositions (p : Pattern) : p.concretePositions.Nodup :=
  List.nodup_range.filter _

/-! ### One part for each concrete trit -/

/-- One part for each concrete trit that is still to come. -/
theorem length_complementFrom (p copied : Pattern) (rest : List Nat) :
    (complementFrom p copied rest).length = rest.countP fun i ↦ (p.trit i).isConcrete := by
  induction rest generalizing copied with
  | nil => rfl
  | cons x rest ih =>
    rw [complementFrom, List.countP_cons]
    split
    · rw [List.length_cons, ih]
    · rw [ih, Nat.add_zero]

/-- What the parts allow, from any point of the pass on. Each concrete trit that is passed over is
carried along, so that **what has been copied at the start stands behind what is copied on the
way**. -/
theorem getElem?_complementFrom (hbytes : copied.bytes = p.bytes) (hlt : ∀ i ∈ rest, i < p.width)
    (hk : (rest.filter fun i ↦ (p.trit i).isConcrete)[k]? = some i) :
    ∃ c, (complementFrom p copied rest)[k]? = some c ∧ c.bytes = p.bytes ∧ ∀ j b, c.allows j b =
      if j = i then (p.trit i).flip.allows b
      else if j ∈ (rest.filter fun i ↦ (p.trit i).isConcrete).take k then p.allows j b
      else copied.allows j b := by
  induction rest generalizing copied k with
  | nil => simp at hk
  | cons x rest ih =>
    have hx : x < copied.width := by
      show x < copied.bytes * tritsPerByte
      rw [hbytes]
      exact hlt x List.mem_cons_self
    have hlt' : ∀ j ∈ rest, j < p.width := fun j hj ↦ hlt j (List.mem_cons_of_mem _ hj)
    rw [complementFrom]
    split
    · rename_i hconcrete
      rw [List.filter_cons, if_pos hconcrete] at hk ⊢
      cases k with
      | zero =>
        obtain rfl : x = i := Option.some.inj hk
        refine ⟨_, rfl, hbytes, fun j b ↦ ?_⟩
        rw [allows_put hx, List.take_zero, if_neg List.not_mem_nil]
      | succ k =>
        -- the rest of the pass carries the trit at `x` as well
        have hput : (copied.put x (p.trit x)).bytes = p.bytes := hbytes
        obtain ⟨c, hc, hcbytes, hallows⟩ := ih hput hlt' hk
        refine ⟨c, hc, hcbytes, fun j b ↦ ?_⟩
        rw [hallows, allows_put hx, List.take_succ_cons]
        by_cases hj : j = x
        · subst hj
          simp [allows]
        · simp [hj]
    · rename_i hconcrete
      rw [List.filter_cons, if_neg hconcrete] at hk ⊢
      exact ih hbytes hlt' hk

/-- A pattern without conflict goes through the pass. -/
theorem complement_of_not_hasConflict (hp : p.hasConflict = false) :
    p.complement = complementFrom p (allWild p.bytes) (List.range p.width) := by
  rw [complement, hp]
  rfl

/-- **There is one part for each concrete trit.** -/
theorem length_complement (hp : p.hasConflict = false) :
    p.complement.length = (List.range p.width).countP fun i ↦ (p.trit i).isConcrete := by
  rw [complement_of_not_hasConflict hp, length_complementFrom]

theorem length_complement_eq_length_concretePositions (hp : p.hasConflict = false) :
    p.complement.length = p.concretePositions.length := by
  rw [length_complement hp, concretePositions, List.countP_eq_length_filter]

/-- **The `k`-th part copies the concrete trits before the `k`-th, flips that one and is wild
elsewhere.** -/
theorem getElem?_complement (hp : p.hasConflict = false) (hk : p.concretePositions[k]? = some i) :
    ∃ c, p.complement[k]? = some c ∧ c.bytes = p.bytes ∧ ∀ j b, c.allows j b =
      if j = i then (p.trit i).flip.allows b
      else if j ∈ p.concretePositions.take k then p.allows j b
      else true := by
  rw [complement_of_not_hasConflict hp]
  obtain ⟨c, hc, hbytes, hallows⟩ :=
    getElem?_complementFrom (bytes_allWild p.bytes) (fun i hi ↦ List.mem_range.1 hi) hk
  refine ⟨c, hc, hbytes, fun j b ↦ ?_⟩
  rw [hallows, allows_allWild]
  rfl

/-! ### The parts are disjoint -/

/-- **Two patterns are apart if one flips a concrete trit of the other.** -/
theorem apart_of_flip (i : Nat) {t : Trit} (ht : t.isConcrete = true)
    (hp : ∀ b, p.allows i b = t.flip.allows b) (hq : ∀ b, q.allows i b = t.allows b) :
    Excludes p q := by
  intro h hm hm'
  have hflip : t.flip.allows (h i) = true := hp (h i) ▸ matches_iff.1 hm i
  have hsame : t.allows (h i) = true := hq (h i) ▸ matches_iff.1 hm' i
  rw [allows_flip ht, hsame] at hflip
  exact absurd hflip (by decide)

/-- **No header matches two parts**: the later one copies what the earlier one flips. -/
theorem pairwise_complement (hp : p.hasConflict = false) : p.complement.Pairwise Excludes := by
  have hlen := length_complement_eq_length_concretePositions hp
  rw [List.pairwise_iff_getElem]
  intro k l hk hl hkl
  -- the parts belong to the concrete trits at `i` and, further on, at `j`
  obtain ⟨i, hi⟩ : ∃ i, p.concretePositions[k]? = some i :=
    ⟨_, List.getElem?_eq_getElem (hlen ▸ hk)⟩
  obtain ⟨j, hj⟩ : ∃ j, p.concretePositions[l]? = some j :=
    ⟨_, List.getElem?_eq_getElem (hlen ▸ hl)⟩
  have hne : i ≠ j := by
    rintro rfl
    have := (List.getElem?_inj (hlen ▸ hk) p.nodup_concretePositions).1 (hi.trans hj.symm)
    omega
  have hearlier : i ∈ p.concretePositions.take l :=
    List.mem_of_getElem? ((List.getElem?_take_of_lt hkl).trans hi)
  obtain ⟨c, hc, -, hflips⟩ := getElem?_complement hp hi
  obtain ⟨d, hd, -, hcopies⟩ := getElem?_complement hp hj
  obtain rfl : p.complement[k] = c := Option.some.inj ((List.getElem?_eq_getElem hk).symm.trans hc)
  obtain rfl : p.complement[l] = d := Option.some.inj ((List.getElem?_eq_getElem hl).symm.trans hd)
  refine apart_of_flip i (isConcrete_of_mem_concretePositions (List.mem_of_getElem? hi))
    (fun b ↦ ?_) fun b ↦ ?_
  · rw [hflips, if_pos rfl]
  · rw [hcopies, if_neg hne, if_pos hearlier]
    rfl

/-! ### The whole complement -/

/-- The parts divide up what the pattern leaves over. -/
theorem dividesRest_complement (hp : p.hasConflict = false) : DividesRest p p.complement where
  solid c hc := ⟨bytes_of_mem_complement hc, hasConflict_of_mem_complement hc⟩
  pairwise := pairwise_complement hp
  apart c hc h hm hm' := exists_mem_complement.1 ⟨c, hc, hm'⟩ hm
  covers h := or_iff_not_imp_left.2 exists_mem_complement.2
  length := length_complement hp
  reads k i hk := by
    obtain ⟨c, hc, hbytes, hallows⟩ := getElem?_complement hp hk
    refine ⟨c, hc, reads_of_allows hbytes fun j _ b ↦ ?_⟩
    rw [hallows]
    split
    · rfl
    · split
      · rfl
      · cases b <;> rfl

/-- **The complement of a pattern divides the rest of the space.** A pattern with a conflict has the
whole space as its complement; otherwise the parts have no conflict, are pairwise disjoint and
disjoint from the pattern, cover with it all headers, and there is one for each concrete trit, which
copies those before, flips this one and is wild elsewhere. -/
theorem complement_divides_rest (p : Pattern) :
    ((∃ i < p.width, p.trit i = .conflict) → p.complement = [allWild p.bytes]) ∧
    ((∀ i < p.width, p.trit i ≠ .conflict) → DividesRest p p.complement) := by
  refine ⟨fun hz ↦ ?_, fun hz ↦ dividesRest_complement ?_⟩
  · rw [complement, hasConflict_iff_trit.2 hz]
    rfl
  · rw [← Bool.not_eq_true, hasConflict_iff_trit]
    rintro ⟨i, hi, hconflict⟩
    exact hz i hi hconflict

/-- Five bytes with concrete trits in both words, and the same with a conflict at the end. -/
theorem complement_divides_rest_five_bytes :
    DividesRest (ofTrits (Trit.one :: Trit.zero :: List.replicate 37 Trit.wild ++ [Trit.one]))
      (ofTrits (Trit.one :: Trit.zero :: List.replicate 37 Trit.wild ++ [Trit.one])).complement ∧
    (ofTrits (Trit.one :: Trit.zero :: List.replicate 37 Trit.wild ++
      [Trit.one])).complement.length = 3 ∧
    (ofTrits (Trit.one :: Trit.zero :: List.replicate 37 Trit.wild ++ [Trit.conflict])).complement =
      [allWild 5] := by
  refine ⟨(complement_divides_rest _).2 ?_, ?_, (complement_divides_rest _).1 ⟨39, ?_, ?_⟩⟩ <;>
    decide +kernel

end HeaderFlow.Pattern
