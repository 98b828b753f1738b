import CrossAssembler.Expression.Value

/-!
# Operators

* `UnaryOp`, `BinaryOp` — the four operators before an operand and the eighteen between two.
* `BinaryOp.precedence` — how tightly an operator binds; all of them group to the left.
* `UnaryOp.apply`, `BinaryOp.apply` — what they compute.
-/

namespace CrossAssembler

open Expression (Error)

/-- The operators that stand before their operand. -/
inductive UnaryOp where
  | not | negate | lowByte | highByte
  deriving DecidableEq, Repr

/-- The operators that stand between their operands. -/
inductive BinaryOp where
  | mul | div | rem | add | sub | shl | shr | lt | le | gt | ge | eq | ne
  | bitAnd | bitXor | bitOr | and | or
  deriving DecidableEq, Repr

namespace UnaryOp

/-- Every operator before an operand binds tighter than any between two. -/
def precedence (_ : UnaryOp) : Nat := 11

def symbol : UnaryOp → String
  | not => "!"
  | negate => "-"
  | lowByte => "<"
  | highByte => ">"

def apply (op : UnaryOp) (v : Value) : Except Error Value :=
  match op with
  | not => .ok (.ofBool !v.isTruthy)
  | negate => do
    let n ← v.toNumber
    return .number (← n.neg)
  | lowByte => v.toNumber.map fun n => .number n.lowByte
  | highByte => v.toNumber.map fun n => .number n.highByte

end UnaryOp

namespace BinaryOp

def precedence : BinaryOp → Nat
  | mul | div | rem => 10
  | add | sub => 9
  | shl | shr => 8
  | lt | le | gt | ge => 7
  | eq | ne => 6
  | bitAnd => 5
  | bitXor => 4
  | bitOr => 3
  | and => 2
  | or => 1

def symbol : BinaryOp → String
  | mul => "*"
  | div => "/"
  | rem => "%"
  | add => "+"
  | sub => "-"
  | shl => "<<"
  | shr => ">>"
  | lt => "<"
  | le => "<="
  | gt => ">"
  | ge => ">="
  | eq => "=="
  | ne => "!="
  | bitAnd => "&"
  | bitXor => "^"
  | bitOr => "|"
  | and => "&&"
  | or => "||"

/-- The value of an operator on two numbers. Comparisons are made between doubles. -/
def onNumbers (op : BinaryOp) (a b : Number) : Except Error Value :=
  match op with
  | mul => (a.mul b).map .number
  | div => (a.div b).map .number
  | rem => (a.rem b).map .number
  | add => (a.add b).map .number
  | sub => (a.sub b).map .number
  | shl => (a.shl b).map .number
  | shr => (a.shr b).map .number
  | bitAnd => (a.bitAnd b).map .number
  | bitXor => (a.bitXor b).map .number
  | bitOr => (a.bitOr b).map .number
  | lt => .ok (.ofBool (decide (a.toFloat < b.toFloat)))
  | le => .ok (.ofBool (decide (a.toFloat ≤ b.toFloat)))
  | gt => .ok (.ofBool (decide (b.toFloat < a.toFloat)))
  | ge => .ok (.ofBool (decide (b.toFloat ≤ a.toFloat)))
  | eq => .ok (.ofBool (a.toFloat == b.toFloat))
  | ne => .ok (.ofBool (!(a.toFloat == b.toFloat)))
  | and => .ok (.ofBool (a.isTruthy && b.isTruthy))
  | or => .ok (.ofBool (a.isTruthy || b.isTruthy))

/-- The value of an operator on its operands. Strings are joined and compared for equality as
strings; everywhere else they must stand for numbers. -/
def apply (op : BinaryOp) (l r : Value) : Except Error Value :=
  match op, l, r with
  | add, .string a, .string b => .ok (.string (a ++ b))
  | eq, .string a, .string b => .ok (.ofBool (a == b))
  | ne, .string a, .string b => .ok (.ofBool (a != b))
  | and, l, r => .ok (.ofBool (l.isTruthy && r.isTruthy))
  | or, l, r => .ok (.ofBool (l.isTruthy || r.isTruthy))
  | op, l, r => do
    let a ← l.toNumber
    let b ← r.toNumber
    op.onNumbers a b

end BinaryOp

end CrossAssembler
