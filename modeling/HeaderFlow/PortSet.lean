/-!
# Sets of ports

A set of ports is kept as a strictly increasing list, so **two sets with the same members are
equal**, and membership and intersection need one walk along the lists: a search may stop at the
first port that is not smaller, and an intersection advances whichever list has the smaller head.
-/

namespace HeaderFlow

/-- A point at which nodes are connected. -/
abbrev Port : Type := UInt32

namespace PortSet

/-- Inserts a port into an increasing list, unless it is there already. -/
def insertSorted (p : Port) : List Port → List Port
  | [] => [p]
  | q :: qs => if p < q then p :: q :: qs else if p = q then q :: qs else q :: insertSorted p qs

/-- Searches an increasing list. -/
def memSorted (p : Port) : List Port → Bool
  | [] => false
  | q :: qs => if q < p then memSorted p qs else q == p

/-- The common members of two increasing lists; `fuel` is at least the sum of their lengths. -/
def interSorted : (fuel : Nat) → List Port → List Port → List Port
  | fuel + 1, p :: ps, q :: qs =>
    if p < q then interSorted fuel ps (q :: qs)
    else if q < p then interSorted fuel (p :: ps) qs
    else p :: interSorted fuel ps qs
  | _, _, _ => []

/-! ### The lists stay increasing -/

theorem mem_insertSorted {p x : Port} {l : List Port} :
    x ∈ insertSorted p l ↔ x = p ∨ x ∈ l := by
  induction l with
  | nil => simp [insertSorted]
  | cons q qs ih =>
    rw [insertSorted]
    split
    · simp
    · split
      · rename_i h
        subst h
        simp
      · simp only [List.mem_cons, ih]
        exact or_left_comm

theorem pairwise_insertSorted {p : Port} {l : List Port} (h : l.Pairwise (· < ·)) :
    (insertSorted p l).Pairwise (· < ·) := by
  induction l with
  | nil => simp [insertSorted]
  | cons q qs ih =>
    obtain ⟨hq, hqs⟩ := List.pairwise_cons.1 h
    rw [insertSorted]
    split
    · rename_i hpq
      refine List.pairwise_cons.2 ⟨fun x hx ↦ ?_, h⟩
      rcases List.mem_cons.1 hx with rfl | hx
      · exact hpq
      · exact UInt32.lt_trans hpq (hq x hx)
    · split
      · exact h
      · rename_i hpq hne
        refine List.pairwise_cons.2 ⟨fun x hx ↦ ?_, ih hqs⟩
        rcases mem_insertSorted.1 hx with rfl | hx
        · exact UInt32.lt_of_le_of_ne (UInt32.not_lt.1 hpq) (Ne.symm hne)
        · exact hq x hx

/-- **Everything in the intersection is in the first list.** -/
theorem mem_of_mem_interSorted {x : Port} {fuel : Nat} {l m : List Port}
    (h : x ∈ interSorted fuel l m) : x ∈ l := by
  fun_induction interSorted fuel l m with
  | case1 fuel p ps q qs hpq ih => exact List.mem_cons_of_mem _ (ih h)
  | case2 fuel p ps q qs _ hqp ih => exact ih h
  | case3 fuel p ps q qs _ _ ih =>
    rcases List.mem_cons.1 h with rfl | h
    · exact List.mem_cons_self
    · exact List.mem_cons_of_mem _ (ih h)
  | case4 => simp at h

theorem pairwise_interSorted {fuel : Nat} {l m : List Port} (h : l.Pairwise (· < ·)) :
    (interSorted fuel l m).Pairwise (· < ·) := by
  fun_induction interSorted fuel l m with
  | case1 fuel p ps q qs hpq ih => exact ih (List.pairwise_cons.1 h).2
  | case2 fuel p ps q qs _ hqp ih => exact ih h
  | case3 fuel p ps q qs _ _ ih =>
    obtain ⟨hp, hps⟩ := List.pairwise_cons.1 h
    exact List.pairwise_cons.2 ⟨fun x hx ↦ hp x (mem_of_mem_interSorted hx), ih hps⟩
  | case4 => exact List.Pairwise.nil

end PortSet

/-- A finite set of ports. -/
structure PortSet where
  /-- The members in increasing order. -/
  toList : List Port
  /-- The order is strict, so no member is listed twice. -/
  sorted : toList.Pairwise (· < ·)
  deriving DecidableEq

namespace PortSet

/-- No ports. -/
def empty : PortSet := ⟨[], List.Pairwise.nil⟩

/-- The set with one more member. -/
def insert (s : PortSet) (p : Port) : PortSet :=
  ⟨insertSorted p s.toList, pairwise_insertSorted s.sorted⟩

/-- The members of a list. -/
def ofList (ps : List Port) : PortSet := ps.foldl insert empty

/-- The number of members. -/
def size (s : PortSet) : Nat := s.toList.length

/-- There are no members. -/
def isEmpty (s : PortSet) : Bool := s.toList.isEmpty

/-- The port is a member. -/
def contains (s : PortSet) (p : Port) : Bool := memSorted p s.toList

/-- The common members. -/
def inter (s t : PortSet) : PortSet :=
  ⟨interSorted (s.size + t.size) s.toList t.toList, pairwise_interSorted s.sorted⟩

/-- The sets have a common member. -/
def intersects (s t : PortSet) : Bool := s.toList.any t.contains

/-- Every member of `s` is a member of `t`. -/
def isSubset (s t : PortSet) : Bool := s.toList.all t.contains

/-- The written form: the members in brackets with commas between them. -/
def text (s : PortSet) : String :=
  "[" ++ ",".intercalate (s.toList.map fun p ↦ toString p.toNat) ++ "]"

end PortSet

end HeaderFlow
