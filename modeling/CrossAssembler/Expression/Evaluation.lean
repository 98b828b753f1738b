import CrossAssembler.Expression.Postfix

/-!
# Evaluating an expression

The parts are worked off in evaluation order on a stack of values. A label without a value stops the
evaluation: as an outcome of its own while labels are still being settled, as an error at the end.
-/

namespace CrossAssembler

namespace Expression

/-- The value of a label reference that stands at a byte range of the expression. -/
abbrev Resolver := Reference → Nat → Nat → Option Value

/-- Whether labels may still be without a value. -/
inductive Mode where
  | tentative
  | final
  deriving DecidableEq, Repr

/-- A value, or the first label that has none yet. -/
inductive Outcome where
  | resolved (value : Value)
  | pending (label : String) (start stop : Nat)
  deriving Repr

/-- Works off parts on a stack of values, the last one first. `size` is the size of the whole text. -/
def run (resolve : Resolver) (mode : Mode) (size : Nat) :
    List Value → List Part → Except Error Outcome
  | [v], [] => .ok (.resolved v)
  | [], [] => .error (.unexpectedEnd size)
  | _, [] => .error .empty
  | stack, part :: rest =>
    match part.kind, stack with
    | .number n, stack => run resolve mode size (.number n :: stack) rest
    | .string s, stack => run resolve mode size (.string s :: stack) rest
    | .label reference, stack =>
      match resolve reference part.start part.stop with
      | some v => run resolve mode size (v :: stack) rest
      | none =>
        match mode with
        | .tentative => .ok (.pending reference.text part.start part.stop)
        | .final => .error (.unresolved reference.text part.start part.stop)
    | .unary op, v :: stack => do
      let w ← op.apply v
      run resolve mode size (w :: stack) rest
    | .binary op, r :: l :: stack => do
      let w ← op.apply l r
      run resolve mode size (w :: stack) rest
    | .unary _, _ | .binary _, _ => .error (.unexpectedEnd part.start)
    | .opening, _ | .closing, _ => .error (.unbalancedBracket part.start)

/-- The outcome of an expression under a resolver. -/
def evaluate (e : Expression) (resolve : Resolver) (mode : Mode) : Except Error Outcome :=
  run resolve mode e.text.utf8ByteSize [] e.parts

/-- The value of a text in which no label has a value. -/
def evaluateText (text : String) : Except Error Value := do
  let e ← parse text
  match ← e.evaluate (fun _ _ _ => none) .final with
  | .resolved v => return v
  | .pending label start stop => .error (.unresolved label start stop)

end Expression

end CrossAssembler
