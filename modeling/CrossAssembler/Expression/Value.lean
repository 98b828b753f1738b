import CrossAssembler.Expression.Number

/-!
# Values

An expression has a number or a string for its value. A string of one character stands for that
character's code wherever a number is needed.

* `Value.number`, `Value.int` — the numeric views.
* `Value.text` — the text of a value in a message.
-/

namespace CrossAssembler

open Expression (Error)

/-- A number or a string. -/
inductive Value where
  | number (n : Number)
  | string (text : String)
  deriving Repr

namespace Value

instance : BEq Value where
  beq
    | number a, number b => a == b
    | string a, string b => a == b
    | _, _ => false

def ofWord (n : Int64) : Value := number (.int n)

def ofBool (b : Bool) : Value := ofWord (if b then 1 else 0)

def toNumber : Value → Except Error Number
  | number n => .ok n
  | string s =>
    match s.toList with
    | [c] => .ok (.int (Int64.ofNat c.toNat))
    | _ => .error (.notANumber s)

/-- The integer part of the number a value stands for. -/
def toWord (v : Value) : Except Error Int64 := v.toNumber.map Number.truncated

/-- Whether a value counts as true. The empty string is false, and of a longer string only one with
a single character is judged by its code. -/
def isTruthy : Value → Bool
  | number n => n.isTruthy
  | string s =>
    match s.toList with
    | [c] => c.toNat != 0
    | cs => !cs.isEmpty

def text : Value → String
  | number n => n.text
  | string s => s

end Value

end CrossAssembler
