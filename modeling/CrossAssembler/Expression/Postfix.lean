import CrossAssembler.Expression.Splitting

/-!
# Evaluation order

Operands keep their order. An operator waits on a stack until an operator that does not bind tighter,
a closing bracket or the end releases it, so that it follows its operands.

* `Expression.parse` — a text as an expression ready for evaluation.
-/

namespace CrossAssembler

namespace Expression

/-- Whether a part waiting on the stack goes out before an operator of the given precedence. -/
def releasedBy (precedence : Nat) (waiting : Part) : Bool :=
  match waiting.precedence? with
  | some p => precedence ≤ p
  | none => false

/-- What is left waiting at the end, which must hold no opening bracket. -/
def release : List Part → Except Error (List Part)
  | [] => .ok []
  | top :: stack =>
    if top.isOpening then
      .error (.unbalancedBracket top.start)
    else
      (release stack).map (top :: ·)

/-- The parts still to go out, given those that wait with the last one first. -/
def orderFrom (stack : List Part) : List Part → Except Error (List Part)
  | [] => release stack
  | part :: rest =>
    match part.kind with
    | .opening | .unary _ => orderFrom (part :: stack) rest
    | .closing =>
      match stack.dropWhile fun p => !p.isOpening with
      | [] => .error (.unbalancedBracket part.start)
      | _ :: below =>
        (orderFrom below rest).map (stack.takeWhile (fun p => !p.isOpening) ++ ·)
    | .binary op =>
      (orderFrom (part :: stack.dropWhile (releasedBy op.precedence)) rest).map
        (stack.takeWhile (releasedBy op.precedence) ++ ·)
    | _ => (orderFrom stack rest).map (part :: ·)

/-- The parts in the order they are evaluated. -/
def order (parts : List Part) : Except Error (List Part) := orderFrom [] parts

end Expression

/-- An expression with its parts in evaluation order. -/
structure Expression where
  text : String
  parts : List Expression.Part
  deriving Repr

namespace Expression

def parse (text : String) : Except Error Expression := do
  let parts ← split text.toList
  let ordered ← order parts
  return ⟨text, ordered⟩

/-- The label references of an expression with their byte ranges, in evaluation order. -/
def references (e : Expression) : List (Reference × Nat × Nat) :=
  e.parts.filterMap fun p =>
    match p.kind with
    | .label reference => some (reference, p.start, p.stop)
    | _ => none

/-- The text of an expression that is a lone string literal. -/
def stringLiteral? (e : Expression) : Option String :=
  match e.parts with
  | [⟨.string text, _, _⟩] => some text
  | _ => none

end Expression

end CrossAssembler
