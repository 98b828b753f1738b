import CrossAssembler.Expression.Operator

/-!
# The parts of an expression

* `Reference` — how an expression names a label.
* `Part` — a literal, reference, operator or bracket with its place in the text.
-/

namespace CrossAssembler

/-- How an expression names a label. -/
inductive Reference where
  | named (name : String)
  /-- A run of `+`: the n-th nameless label after the reference. -/
  | forward (count : Nat)
  /-- A run of `-`: the n-th nameless label before the reference. -/
  | backward (count : Nat)
  /-- The address of the line, written `*`. -/
  | here
  deriving DecidableEq, Repr

def Reference.text : Reference → String
  | named name => name
  | forward count => String.ofList (List.replicate count '+')
  | backward count => String.ofList (List.replicate count '-')
  | here => "*"

namespace Expression

/-- What a part of an expression is. -/
inductive Part.Kind where
  | number (n : Number)
  | string (text : String)
  | label (reference : Reference)
  | unary (op : UnaryOp)
  | binary (op : BinaryOp)
  | opening
  | closing
  deriving Repr

/-- A part with the byte range it has in the text. -/
structure Part where
  kind : Part.Kind
  start : Nat
  stop : Nat
  deriving Repr

def Part.isOpening (p : Part) : Bool :=
  match p.kind with
  | .opening => true
  | _ => false

/-- The precedence of an operator, or `none` for any other part. -/
def Part.precedence? (p : Part) : Option Nat :=
  match p.kind with
  | .unary op => some op.precedence
  | .binary op => some op.precedence
  | _ => none

end Expression

end CrossAssembler
