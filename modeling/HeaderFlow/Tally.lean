/-!
# Tallies

Sums of a count over a list. `tally_append` is the law that all uses rest on: **a tally may be taken
part by part**.
-/

namespace HeaderFlow

variable {α : Type}

/-- The sum of `f` over a list. -/
def tally (f : α → Nat) : List α → Nat
  | [] => 0
  | a :: l => f a + tally f l

@[simp]
theorem tally_nil (f : α → Nat) : tally f [] = 0 := rfl

@[simp]
theorem tally_cons (f : α → Nat) (a : α) (l : List α) : tally f (a :: l) = f a + tally f l := rfl

@[simp]
theorem tally_append (f : α → Nat) (l m : List α) : tally f (l ++ m) = tally f l + tally f m := by
  induction l with
  | nil => simp
  | cons a l ih => rw [List.cons_append, tally_cons, tally_cons, ih, Nat.add_assoc]

end HeaderFlow
