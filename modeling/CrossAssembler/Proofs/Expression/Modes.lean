import CrossAssembler.Proofs.Expression.Faults

/-!
# Labels that have no value yet

While labels are being settled, a label without a value leaves an evaluation open; at the end it is an error.
Apart from that the two modes do the same, and what they find does not change when more labels have a value.

* `run_cons` — working off parts is one step after the other.

Principal results: `run_final` — an evaluation at the end is one made before, with what was left open turned
into an error; `run_of_le` — an evaluation that stopped at no label is the same when more labels have a value.
-/

namespace CrossAssembler.Expression

variable {resolve resolve' : Resolver} {mode mode' : Mode} {size : Nat} {part : Part} {stack : List Value}
variable {e : Error}

/-! ## One part -/

/-- Why working off parts stops before the last one. -/
inductive Stop where
  | missing (reference : Reference) (start stop : Nat)
  | failure (e : Error)

/-- What an evaluation gives that stops. -/
def Stop.outcome (mode : Mode) : Stop → Except Error Outcome
  | missing reference start stop =>
    match mode with
    | .tentative => .ok (.pending reference.text start stop)
    | .final => .error (.unresolved reference.text start stop)
  | failure e => .error e

/-- The stack with the value of an operator on it, below which `rest` stays. -/
def pushed (rest : List Value) : Except Error Value → Except Stop (List Value)
  | .ok v => .ok (v :: rest)
  | .error e => .error (.failure e)

/-- What one part does to the stack. -/
def step (resolve : Resolver) (part : Part) (stack : List Value) : Except Stop (List Value) :=
  match part.kind, stack with
  | .number n, stack => .ok (.number n :: stack)
  | .string text, stack => .ok (.string text :: stack)
  | .label reference, stack =>
    match resolve reference part.start part.stop with
    | some v => .ok (v :: stack)
    | none => .error (.missing reference part.start part.stop)
  | .unary op, v :: rest => pushed rest (op.apply v)
  | .binary op, r :: l :: rest => pushed rest (op.apply l r)
  | .unary _, _ | .binary _, _ => .error (.failure (.unexpectedEnd part.start))
  | .opening, _ | .closing, _ => .error (.failure (.unbalancedBracket part.start))

/-- Goes on with the stack that a step leaves, or stops. -/
def goOn (mode : Mode) (next : List Value → Except Error Outcome) : Except Stop (List Value) → Except Error Outcome
  | .ok stack => next stack
  | .error why => why.outcome mode

theorem goOn_pushed (next : List Value → Except Error Outcome) (rest : List Value) (x : Except Error Value) :
    goOn mode next (pushed rest x) = x.bind fun w => next (w :: rest) := by
  cases x <;> rfl

theorem run_cons (rest : List Part) : run resolve mode size stack (part :: rest) =
    goOn mode (fun stack => run resolve mode size stack rest) (step resolve part stack) := by
  rw [run.eq_def]
  unfold step
  cases hkind : part.kind with
  | number n => simp only [hkind, goOn]
  | string text => simp only [hkind, goOn]
  | label reference =>
    simp only [hkind]
    cases resolve reference part.start part.stop with
    | some v => simp only [goOn]
    | none => cases mode <;> rfl
  | unary op =>
    rcases stack with _ | ⟨v, stack⟩
    · simp only [hkind, goOn, Stop.outcome]
    · simp only [hkind, goOn_pushed]
      rfl
  | binary op =>
    rcases stack with _ | ⟨r, _ | ⟨l, stack⟩⟩
    · simp only [hkind, goOn, Stop.outcome]
    · simp only [hkind, goOn, Stop.outcome]
    · simp only [hkind, goOn_pushed]
      rfl
  | opening => simp only [hkind, goOn, Stop.outcome]
  | closing => simp only [hkind, goOn, Stop.outcome]

/-- Whether an error says that a label has no value. -/
def Error.isUnresolved : Error → Bool
  | .unresolved _ _ _ => true
  | _ => false

theorem isUnresolved_of_ne (h : ∀ label start stop, e ≠ .unresolved label start stop) : e.isUnresolved = false := by
  cases e with
  | unresolved label start stop => exact absurd rfl (h label start stop)
  | _ => rfl

theorem isUnresolved_of_isOfValues (h : e.isOfValues = true) : e.isUnresolved = false := by
  cases e with
  | unresolved => cases h
  | _ => rfl

theorem isUnresolved_of_pushed {rest : List Value} {x : Except Error Value} (hx : OfValues x)
    (h : pushed rest x = .error (.failure e)) : e.isUnresolved = false := by
  cases x with
  | ok v => cases h
  | error err =>
    cases h
    exact isUnresolved_of_isOfValues (hx e rfl)

theorem isUnresolved_of_step (h : step resolve part stack = .error (.failure e)) : e.isUnresolved = false := by
  unfold step at h
  split at h
  · cases h
  · cases h
  · split at h <;> cases h
  · exact isUnresolved_of_pushed (ofValues_unary _ _) h
  · exact isUnresolved_of_pushed (ofValues_binary _ _ _) h
  all_goals
    cases h
    rfl

/-! ## The two modes -/

/-- What an outcome is at the end: a label without a value is an error. -/
def atEnd : Except Error Outcome → Except Error Outcome
  | .ok (.pending label start stop) => .error (.unresolved label start stop)
  | other => other

section AtEnd

variable {x : Except Error Outcome}

theorem atEnd_eq_resolved {v : Value} : atEnd x = .ok (.resolved v) ↔ x = .ok (.resolved v) := by
  rcases x with err | (w | ⟨label, start, stop⟩)
  · exact Iff.rfl
  · exact Iff.rfl
  · exact ⟨nofun, nofun⟩

theorem atEnd_eq_unresolved (hx : ∀ err, x = .error err → err.isUnresolved = false) {label : String}
    {start stop : Nat} :
    atEnd x = .error (.unresolved label start stop) ↔ x = .ok (.pending label start stop) := by
  rcases x with err | (w | ⟨label', start', stop'⟩)
  · refine ⟨fun h => ?_, nofun⟩
    cases h
    cases hx _ rfl
  · exact ⟨nofun, nofun⟩
  · simp only [atEnd, Except.error.injEq, Error.unresolved.injEq, Except.ok.injEq, Outcome.pending.injEq]

theorem atEnd_eq_error {err : Error} (h : err.isUnresolved = false) : atEnd x = .error err ↔ x = .error err := by
  rcases x with err' | (w | ⟨label, start, stop⟩)
  · exact Iff.rfl
  · exact Iff.rfl
  · refine ⟨fun heq => ?_, nofun⟩
    cases heq
    cases h

end AtEnd

theorem atEnd_outcome (why : Stop) : why.outcome .final = atEnd (why.outcome .tentative) := by
  cases why <;> rfl

theorem run_nil_mode : run resolve mode size stack [] = run resolve' mode' size stack [] := by
  rcases stack with _ | ⟨v, _ | ⟨w, stack⟩⟩ <;> rfl

theorem atEnd_run_nil : run resolve mode size stack [] = atEnd (run resolve mode size stack []) := by
  rcases stack with _ | ⟨v, _ | ⟨w, stack⟩⟩ <;> rfl

/-- An evaluation at the end is one made before, with what was left open turned into an error. -/
theorem run_final (stack : List Value) (parts : List Part) :
    run resolve .final size stack parts = atEnd (run resolve .tentative size stack parts) := by
  induction parts generalizing stack with
  | nil => exact run_nil_mode.trans atEnd_run_nil
  | cons part rest ih =>
    rw [run_cons, run_cons]
    cases step resolve part stack with
    | ok stack' => exact ih stack'
    | error why => exact atEnd_outcome why

theorem run_tentative_isUnresolved (stack : List Value) (parts : List Part)
    (h : run resolve .tentative size stack parts = .error e) : e.isUnresolved = false := by
  induction parts generalizing stack with
  | nil =>
    rcases stack with _ | ⟨v, _ | ⟨w, stack⟩⟩ <;> cases h
    · rfl
    · rfl
  | cons part rest ih =>
    rw [run_cons] at h
    cases hstep : step resolve part stack with
    | ok stack' =>
      rw [hstep] at h
      exact ih stack' h
    | error why =>
      rw [hstep] at h
      cases why with
      | missing => cases h
      | failure err =>
        cases h
        exact isUnresolved_of_step hstep

/-! ## More labels -/

/-- One resolver gives every answer that another gives. -/
def Resolver.Le (resolve resolve' : Resolver) : Prop :=
  ∀ reference start stop v, resolve reference start stop = some v → resolve' reference start stop = some v

/-- Whether an evaluation stopped at a label without a value. -/
def Misses : Except Error Outcome → Prop
  | .ok (.pending _ _ _) => True
  | .ok (.resolved _) => False
  | .error e => e.isUnresolved = true

/-- A step is the same when more labels have a value, unless it stopped at one that has none. -/
theorem step_of_le (hle : resolve.Le resolve') (part : Part) (stack : List Value) :
    step resolve' part stack = step resolve part stack ∨
      ∃ reference start stop, step resolve part stack = .error (.missing reference start stop) := by
  unfold step
  cases hkind : part.kind with
  | label reference =>
    simp only
    cases hv : resolve reference part.start part.stop with
    | some v =>
      refine .inl ?_
      rw [hle _ _ _ _ hv]
    | none => exact .inr ⟨_, _, _, rfl⟩
  | unary op => cases stack <;> exact .inl rfl
  | binary op => rcases stack with _ | ⟨r, _ | ⟨l, stack⟩⟩ <;> exact .inl rfl
  | number | string | opening | closing => exact .inl rfl

/-- An evaluation that stopped at no label is the same when more labels have a value, in either mode. -/
theorem run_of_le (hle : resolve.Le resolve') (stack : List Value) (parts : List Part)
    (h : ¬ Misses (run resolve mode size stack parts)) :
    run resolve' mode' size stack parts = run resolve mode size stack parts := by
  induction parts generalizing stack with
  | nil => exact run_nil_mode
  | cons part rest ih =>
    rw [run_cons] at h ⊢
    rw [run_cons]
    rcases step_of_le hle part stack with hsame | ⟨reference, start, stop, hmissing⟩
    · rw [hsame]
      cases hstep : step resolve part stack with
      | ok stack' =>
        rw [hstep] at h
        exact ih stack' h
      | error why =>
        cases why with
        | missing reference start stop =>
          rw [hstep] at h
          cases mode <;> exact absurd (by trivial) h
        | failure e => rfl
    · rw [hmissing] at h
      cases mode <;> exact absurd (by trivial) h

/-- Before the end an expression has a value exactly when it has that value at the end, it is left open at a
label exactly when that label is the error at the end, and all other errors are the same. And a value or an
error that is not about a label stays what it is, in either mode, when more labels have a value. -/
theorem modes_agree (e : Expression) (resolve : Resolver) :
    (∀ v, e.evaluate resolve .tentative = .ok (.resolved v) ↔ e.evaluate resolve .final = .ok (.resolved v)) ∧
    (∀ label start stop, e.evaluate resolve .tentative = .ok (.pending label start stop) ↔
      e.evaluate resolve .final = .error (.unresolved label start stop)) ∧
    (∀ err, (∀ label start stop, err ≠ .unresolved label start stop) →
      (e.evaluate resolve .tentative = .error err ↔ e.evaluate resolve .final = .error err)) ∧
    ∀ resolve' : Resolver, (∀ reference start stop v,
        resolve reference start stop = some v → resolve' reference start stop = some v) →
      ∀ mode mode' : Mode,
        (∀ v, e.evaluate resolve mode = .ok (.resolved v) → e.evaluate resolve' mode' = .ok (.resolved v)) ∧
        ∀ err, (∀ label start stop, err ≠ .unresolved label start stop) →
          e.evaluate resolve mode = .error err → e.evaluate resolve' mode' = .error err := by
  have hfinal : e.evaluate resolve .final = atEnd (e.evaluate resolve .tentative) := run_final [] e.parts
  have hlabel : ∀ err, e.evaluate resolve .tentative = .error err → err.isUnresolved = false :=
    fun err => run_tentative_isUnresolved [] e.parts
  rw [hfinal]
  refine ⟨fun v => atEnd_eq_resolved.symm, fun label start stop => (atEnd_eq_unresolved hlabel).symm,
    fun err herr => (atEnd_eq_error (isUnresolved_of_ne herr)).symm, fun resolve' hle mode mode' => ?_⟩
  have hsame : ¬ Misses (e.evaluate resolve mode) → e.evaluate resolve' mode' = e.evaluate resolve mode :=
    run_of_le hle [] e.parts
  refine ⟨fun v h => ?_, fun err herr h => ?_⟩
  · rw [h] at hsame
    exact hsame id
  · rw [h] at hsame
    exact hsame (by rw [Misses, isUnresolved_of_ne herr]; exact Bool.false_ne_true)

/-- The remainder by zero is found before the label that has no value, and stays when that label gets one. -/
theorem modes_agree_remainder : ∃ e : Expression, parse "a%0+b" = .ok e ∧
    e.evaluate (fun reference _ _ => if reference = .named "a" then some (.ofWord 7) else none) .tentative =
      .error .divisionByZero ∧
    e.evaluate (fun _ _ _ => some (.ofWord 7)) .final = .error .divisionByZero := by
  refine ⟨_, rfl, rfl, ?_⟩
  refine (((modes_agree _ fun reference _ _ => if reference = .named "a" then some (.ofWord 7) else none).2.2.2
    (fun _ _ _ => some (.ofWord 7)) ?_ .tentative .final).2 .divisionByZero nofun rfl)
  intro reference _ _ v h
  rcases ite_eq_iff.mp h with ⟨_, h⟩ | ⟨_, h⟩
  · exact h
  · cases h

end CrossAssembler.Expression
