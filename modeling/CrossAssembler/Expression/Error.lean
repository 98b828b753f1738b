/-!
# What can be wrong with an expression

* `Error.message` — their wording.
-/

namespace CrossAssembler.Expression

/-- Why an expression has no value. Positions are byte offsets into its text. -/
inductive Error where
  /-- A character that starts no operand. -/
  | unexpected (token : String) (start stop : Nat)
  /-- A character after an operand that starts no operator. -/
  | expectedOperator (token : String) (start stop : Nat)
  | unexpectedEnd (position : Nat)
  | empty
  | invalidNumber (literal : String) (start stop : Nat)
  | unterminatedString (start : Nat)
  | unbalancedBracket (position : Nat)
  | unresolved (name : String) (start stop : Nat)
  /-- A string that is not one character, where a number is needed. -/
  | notANumber (text : String)
  /-- An operand with a fraction or out of range, where a word is needed. -/
  | integerRequired (operator : String)
  | divisionByZero
  | overflow
  deriving DecidableEq, Repr

namespace Error

def message : Error → String
  | unexpected token _ _ => s!"unexpected '{token}' in expression"
  | expectedOperator token _ _ => s!"expected an operator after operand, found '{token}'"
  | unexpectedEnd _ => "unexpected end of expression"
  | empty => "empty expression"
  | invalidNumber literal _ _ => s!"invalid number literal '{literal}'"
  | unterminatedString _ => "unterminated string literal"
  | unbalancedBracket _ => "unbalanced bracket"
  | unresolved name _ _ => s!"unresolved label '{name}'"
  | notANumber text => s!"string \"{text}\" cannot be used as a number"
  | integerRequired operator => s!"operator '{operator}' requires exact integer operands"
  | divisionByZero => "division by zero"
  | overflow => "arithmetic overflow"

/-- The byte range of the text that an error points at, when it has one. -/
def range? : Error → Option (Nat × Nat)
  | unexpected _ start stop | expectedOperator _ start stop | invalidNumber _ start stop
  | unresolved _ start stop => some (start, stop)
  | unexpectedEnd position | unbalancedBracket position | unterminatedString position =>
    some (position, position + 1)
  | _ => none

end Error

end CrossAssembler.Expression
