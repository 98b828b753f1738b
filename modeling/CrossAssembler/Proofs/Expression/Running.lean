import CrossAssembler.Expression.Evaluation
import CrossAssembler.Proofs.Results

/-!
# What an evaluation rests on

* `run_number`, `run_string`, `run_label`, `run_unary`, `run_binary` — how each kind of part is worked off.
* `run_final_ne_pending` — at the end no value is left open.

Principal result: `evaluate_eq_of_resolved` — an expression keeps its value wherever its references keep
theirs.
-/

namespace CrossAssembler.Expression

variable {resolve resolve' : Resolver} {mode : Mode} {size : Nat} {part : Part} {rest : List Part}
variable {value : Value}
  {stack : List Value}

theorem run_number {n : Number} (h : part.kind = .number n) :
    run resolve mode size stack (part :: rest) = run resolve mode size (.number n :: stack) rest := by
  rw [run.eq_def]
  simp only [h]

theorem run_string {text : String} (h : part.kind = .string text) :
    run resolve mode size stack (part :: rest) = run resolve mode size (.string text :: stack) rest := by
  rw [run.eq_def]
  simp only [h]

theorem run_label {reference : Reference} {v : Value} (h : part.kind = .label reference)
    (hv : resolve reference part.start part.stop = some v) :
    run resolve mode size stack (part :: rest) = run resolve mode size (v :: stack) rest := by
  rw [run.eq_def]
  simp only [h, hv]

theorem run_unary {op : UnaryOp} {v : Value} (h : part.kind = .unary op) :
    run resolve mode size (v :: stack) (part :: rest) =
      (op.apply v).bind fun w => run resolve mode size (w :: stack) rest := by
  rw [run.eq_def]
  simp only [h]
  rfl

theorem run_binary {op : BinaryOp} {l r : Value} (h : part.kind = .binary op) :
    run resolve mode size (r :: l :: stack) (part :: rest) =
      (op.apply l r).bind fun w => run resolve mode size (w :: stack) rest := by
  rw [run.eq_def]
  simp only [h]
  rfl

theorem run_final_ne_pending {label : String} {start stop : Nat} (stack : List Value) (parts : List Part) :
    run resolve .final size stack parts ≠ .ok (.pending label start stop) := by
  fun_induction run resolve .final size stack parts with
  | case1 | case2 | case3 | case8 | case11 | case12 | case13 | case14 => exact nofun
  | case4 | case5 | case6 => assumption
  | case7 => contradiction
  | case9 _ _ _ _ _ _ ih =>
    intro h
    obtain ⟨w, _, hrest⟩ := exists_of_bind_ok h
    exact ih w hrest
  | case10 _ _ _ _ _ _ _ ih =>
    intro h
    obtain ⟨w, _, hrest⟩ := exists_of_bind_ok h
    exact ih w hrest

/-- A value that was found rests on the values of the references alone. -/
theorem run_eq_of_resolved {mode' : Mode} (stack : List Value) (parts : List Part)
    (h : run resolve mode size stack parts = .ok (.resolved value))
    (hsame : ∀ part ∈ parts, ∀ reference, part.kind = .label reference → ∀ v,
      resolve reference part.start part.stop = some v → resolve' reference part.start part.stop = some v) :
    run resolve' mode' size stack parts = .ok (.resolved value) := by
  fun_induction run resolve mode size stack parts with
  | case1 v => exact h
  | case2 | case3 | case7 | case8 | case11 | case12 | case13 | case14 => cases h
  | case4 _ _ _ _ hkind ih =>
    rw [run_number hkind]
    exact ih h fun p hp => hsame p (List.mem_cons_of_mem _ hp)
  | case5 _ _ _ _ hkind ih =>
    rw [run_string hkind]
    exact ih h fun p hp => hsame p (List.mem_cons_of_mem _ hp)
  | case6 _ _ reference _ hkind v hv ih =>
    rw [run_label hkind (hsame _ List.mem_cons_self reference hkind v hv)]
    exact ih h fun p hp => hsame p (List.mem_cons_of_mem _ hp)
  | case9 _ _ _ _ _ hkind ih =>
    obtain ⟨w, hw, hrest⟩ := exists_of_bind_ok h
    rw [run_unary hkind, hw]
    exact ih w hrest fun p hp => hsame p (List.mem_cons_of_mem _ hp)
  | case10 _ _ _ _ _ _ hkind ih =>
    obtain ⟨w, hw, hrest⟩ := exists_of_bind_ok h
    rw [run_binary hkind, hw]
    exact ih w hrest fun p hp => hsame p (List.mem_cons_of_mem _ hp)

theorem exists_of_run_resolved (stack : List Value) (parts : List Part)
    (h : run resolve mode size stack parts = .ok (.resolved value)) :
    ∀ part ∈ parts, ∀ reference, part.kind = .label reference →
      ∃ v, resolve reference part.start part.stop = some v := by
  fun_induction run resolve mode size stack parts with
  | case1 => exact nofun
  | case2 | case3 | case7 | case8 | case11 | case12 | case13 | case14 => cases h
  | case4 _ _ _ _ hkind ih =>
    refine List.forall_mem_cons.mpr ⟨fun reference hlabel => ?_, ih h⟩
    rw [hkind] at hlabel
    cases hlabel
  | case5 _ _ _ _ hkind ih =>
    refine List.forall_mem_cons.mpr ⟨fun reference hlabel => ?_, ih h⟩
    rw [hkind] at hlabel
    cases hlabel
  | case6 _ _ reference _ hkind v hv ih =>
    refine List.forall_mem_cons.mpr ⟨fun other hlabel => ?_, ih h⟩
    rw [hkind] at hlabel
    cases hlabel
    exact ⟨v, hv⟩
  | case9 _ _ _ _ _ hkind ih =>
    obtain ⟨w, -, hrest⟩ := exists_of_bind_ok h
    refine List.forall_mem_cons.mpr ⟨fun other hlabel => ?_, ih w hrest⟩
    rw [hkind] at hlabel
    cases hlabel
  | case10 _ _ _ _ _ _ hkind ih =>
    obtain ⟨w, -, hrest⟩ := exists_of_bind_ok h
    refine List.forall_mem_cons.mpr ⟨fun other hlabel => ?_, ih w hrest⟩
    rw [hkind] at hlabel
    cases hlabel

theorem evaluate_final_ne_pending (e : Expression) {label : String} {start stop : Nat} :
    e.evaluate resolve .final ≠ .ok (.pending label start stop) := run_final_ne_pending [] e.parts

theorem evaluate_eq_of_resolved {e : Expression} {mode' : Mode} (h : e.evaluate resolve mode = .ok (.resolved value))
    (hsame : ∀ r ∈ e.references, ∀ v, resolve r.1 r.2.1 r.2.2 = some v → resolve' r.1 r.2.1 r.2.2 = some v) :
    e.evaluate resolve' mode' = .ok (.resolved value) := by
  refine run_eq_of_resolved [] e.parts h fun part hpart reference hkind v hv => ?_
  refine hsame (reference, part.start, part.stop) ?_ v hv
  refine List.mem_filterMap.mpr ⟨part, hpart, ?_⟩
  simp only [hkind]

theorem exists_of_evaluate_resolved {e : Expression}
    (h : e.evaluate resolve mode = .ok (.resolved value)) {r : Reference × Nat × Nat}
    (hr : r ∈ e.references) : ∃ v, resolve r.1 r.2.1 r.2.2 = some v := by
  obtain ⟨part, hpart, hsome⟩ := List.mem_filterMap.mp hr
  cases hkind : part.kind <;> simp only [hkind] at hsome <;> cases hsome
  exact exists_of_run_resolved [] e.parts h part hpart _ hkind

end CrossAssembler.Expression
