import Mathlib

/-!
# Computations that can fail

* `exists_of_bind_ok` — a sequence that gives a value has first parts that do.
-/

namespace CrossAssembler

variable {ε α β : Type}

theorem exists_of_bind_ok {first : Except ε α} {next : α → Except ε β} {result : β}
    (h : first >>= next = .ok result) : ∃ a, first = .ok a ∧ next a = .ok result :=
  match first, h with
  | .ok a, h => ⟨a, rfl, h⟩

end CrossAssembler
