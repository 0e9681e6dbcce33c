import HeaderFlow.Proofs.Space.ReadingComplete

/-!
# Reading written sets

Reading answers the value of a text whenever the text is in the grammar, and an error otherwise.
That whatever is read was written, and that whatever was written is read, has been shown of the
readers themselves; here the two are put together for `parse`, which also leaves out the regions
that hold no header.

* `parse_of_writes`: a text in the grammar is read as what it was written for.
* `parse_sound`: an answer comes with an expression that the text writes, an error with its cause.
* `parse_iff`: the text is read **if and only if** it is in the grammar, the answer has the length
  asked for, no conflict in any pattern and every hole inside its frame, and its headers are those
  of the value.

The headers are compared and not the regions: two ways to write one expression may well give
different regions.
-/

namespace HeaderFlow.Space

variable {text : String} {bytes : Nat} {e : Expr}

/-- **A text in the grammar is read as what it was written for.** -/
theorem parse_of_writes (he : Writes text bytes e) :
    parse text bytes = .ok (ofRegions bytes e.regions) := by
  obtain ⟨c, hread, -⟩ := readAll_complete he (.inr rfl)
  rw [parse, hread]
  rfl

/-- **An answer comes with an expression that the text writes, an error with its cause.** -/
theorem parse_sound :
    Answers (Cause text bytes) (fun _ ↦ ∃ e, Writes text bytes e) (parse text bytes) :=
  readAll_sound.bind fun _ ⟨e, he, _⟩ ↦ ⟨e, he⟩

/-- What the regions of an expression are after those without headers were left out. -/
theorem solid_ofRegions (he : e.Proper bytes) :
    Region.EveryOf (Pattern.Solid bytes) (ofRegions bytes e.regions).regions ∧
      ∀ r ∈ (ofRegions bytes e.regions).regions, r.Contained := by
  have htrimmed : ∀ r ∈ (ofRegions bytes e.regions).regions,
      Trimmed bytes r ∧ r.frame.hasConflict = false := by
    intro r hr
    obtain ⟨hr, hsolid⟩ := List.mem_filter.1 hr
    exact ⟨(containsAny_regions he).1 r hr, by simpa using hsolid⟩
  refine ⟨Region.everyOf_iff.2 fun r hr ↦ ?_, fun r hr ↦ (htrimmed r hr).1.contained⟩
  obtain ⟨htrim, hframe⟩ := htrimmed r hr
  obtain ⟨f, hs⟩ := r
  exact Region.every_mk.2 ⟨⟨bytes_frame htrim.uniform, hframe⟩, htrim.solid⟩

/-- **A text is read if and only if it is in the grammar, and means what it says.** If it is read,
then every pattern in the answer has the length asked for and no conflict, every hole lies inside
its frame, and the headers are those of the value of the text. If it is not, the error says why. -/
theorem parse_iff (text : String) (bytes : Nat) :
    ((∃ s, parse text bytes = .ok s) ↔ ∃ e, Writes text bytes e) ∧
    (∀ s, parse text bytes = .ok s → s.bytes = bytes ∧
      Region.EveryOf (Pattern.Solid bytes) s.regions ∧ (∀ r ∈ s.regions, r.Contained) ∧
      ∀ e, Writes text bytes e → ∀ h, s.Contains h ↔ e.Holds h) ∧
    ∀ err, parse text bytes = .error err → Cause text bytes err := by
  have hsound : Answers (Cause text bytes) (fun _ ↦ ∃ e, Writes text bytes e) (parse text bytes) :=
    parse_sound
  have hread : ∀ s, parse text bytes = .ok s → ∃ e, Writes text bytes e := fun s hs ↦ by
    rwa [hs] at hsound
  refine ⟨⟨fun ⟨s, hs⟩ ↦ hread s hs, fun ⟨e, he⟩ ↦ ⟨_, parse_of_writes he⟩⟩, fun s hs ↦ ?_,
    fun err herr ↦ by rwa [herr] at hsound⟩
  have hvalue : ∀ e, Writes text bytes e → s = ofRegions bytes e.regions := fun e he ↦
    Except.ok.inj (hs.symm.trans (parse_of_writes he))
  obtain ⟨e, he⟩ := hread s hs
  have hproper : ∀ e, Writes text bytes e → e.Proper bytes :=
    fun e ⟨_, _, _, _, _, hproper⟩ ↦ hproper
  have hsolid := solid_ofRegions (hproper e he)
  rw [← hvalue e he] at hsolid
  refine ⟨congrArg Space.bytes (hvalue e he), hsolid.1, hsolid.2, fun e' he' h ↦ ?_⟩
  rw [hvalue e' he', Contains, ofRegions, Region.containsAny_filter]
  exact (containsAny_regions (hproper e' he')).2 h

/-- A difference in parentheses, a blank, a union and a pattern that nothing matches. -/
theorem parse_iff_difference :
    ∃ s, parse "((1xxxxxxx) - 11xxxxxx)+zxxxxxxx" 1 = .ok s ∧ ∀ h, s.Contains h ↔
      (Expr.plus (.minus (.group (.pattern ['1', 'x', 'x', 'x', 'x', 'x', 'x', 'x']))
        (.pattern ['1', '1', 'x', 'x', 'x', 'x', 'x', 'x']))
        (.pattern ['z', 'x', 'x', 'x', 'x', 'x', 'x', 'x'])).Holds h := by
  have hnone : Blanks [] := List.forall_mem_nil _
  have hblank : Blanks [' '] := List.forall_mem_singleton.2 rfl
  have hwrites : Writes "((1xxxxxxx) - 11xxxxxx)+zxxxxxxx" 1 _ :=
    ⟨_, [], by decide,
      .plus (.minus hnone (.group hnone (.pattern ['1', 'x', 'x', 'x', 'x', 'x', 'x', 'x'] hnone)
      hnone) hblank (.pattern ['1', '1', 'x', 'x', 'x', 'x', 'x', 'x'] hblank) hnone) hnone
      (.pattern ['z', 'x', 'x', 'x', 'x', 'x', 'x', 'x'] hnone), hnone,
      trivial, ⟨⟨List.cons_ne_nil _ _, List.all_eq_true.1 rfl, rfl⟩, rfl, id,
        ⟨List.cons_ne_nil _ _, List.all_eq_true.1 rfl, rfl⟩⟩,
      ⟨List.cons_ne_nil _ _, List.all_eq_true.1 rfl, rfl⟩⟩
  obtain ⟨s, hs⟩ := (parse_iff _ 1).1.2 ⟨_, hwrites⟩
  exact ⟨s, hs, ((parse_iff _ 1).2.1 s hs).2.2.2 _ hwrites⟩

end HeaderFlow.Space
