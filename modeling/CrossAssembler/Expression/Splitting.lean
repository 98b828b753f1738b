import CrossAssembler.Binary64.Reading
import CrossAssembler.Expression.Part
import CrossAssembler.Text.Blank
import CrossAssembler.Text.Bytes

/-!
# Splitting an expression into parts

Operands and operators alternate. What a character means depends on which of the two is expected:
`<` is the low byte where an operand may start and a comparison after one.
-/

namespace CrossAssembler.Expression

open Text

/-- Which sort of part may come next. -/
inductive Expectation where
  | operand
  | operator
  deriving DecidableEq, Repr

/-- A part read from the start of a text: its kind, its size in bytes, the text after it and what may
follow. -/
structure Reading where
  kind : Part.Kind
  size : Nat
  rest : List Char
  next : Expectation
  deriving Repr

/-- Letters, digits, `_` and `.` make up names and number literals. -/
def isWordChar (c : Char) : Bool := c.isAlphanum || c == '_' || c == '.'

def unescape (c : Char) : Char :=
  if c = 'n' then '\n'
  else if c = 'r' then '\r'
  else if c = 't' then '\t'
  else if c = '0' then Char.ofNat 0
  else c

/-- The content of a string after its opening quote, and the text after the closing one. -/
def stringBody : List Char → Option (List Char × List Char)
  | [] => none
  | '"' :: rest => some ([], rest)
  | ['\\'] => none
  | '\\' :: c :: rest => (stringBody rest).map fun (body, after) => (unescape c :: body, after)
  | c :: rest => (stringBody rest).map fun (body, after) => (c :: body, after)

/-- The character after an opening single quote, and the text after the closing one. -/
def characterBody : List Char → Option (Char × List Char)
  | '\\' :: c :: '\'' :: rest => some (unescape c, rest)
  | '\\' :: _ => none
  | '\'' :: _ => none
  | c :: '\'' :: rest => some (c, rest)
  | _ => none

/-- The word a digit string stands for; underscores between the digits do not count. -/
def radixWord? (base : Nat) (digits : List Char) : Option Int64 :=
  match digits.filter (· != '_') with
  | [] => none
  | ds => (Word.readDigits? base ds).bind fun n => Word.ofInt? n

/-- The number a decimal literal stands for: a word, or with a point the nearest double. -/
def decimalNumber? (literal : List Char) : Option Number :=
  if literal.contains '.' then
    (Binary64.Literal.read? literal).bind fun l => (Number.ofFloat l.nearest).toOption
  else
    ((Word.readDigits? 10 literal).bind fun n => Word.ofInt? n).map .int

/-- The part of a number literal, or the error for one that is not valid. -/
def numberReading (offset : Nat) (literal rest : List Char) (value : Option Number) :
    Except Error Reading :=
  match value with
  | some n => .ok ⟨.number n, byteLength literal, rest, .operator⟩
  | none => .error (.invalidNumber (String.ofList literal) offset (offset + byteLength literal))

def radixLiteral (offset base : Nat) (mark digits : List Char) : Except Error Reading :=
  let run := digits.takeWhile isWordChar
  numberReading offset (mark ++ run) (digits.dropWhile isWordChar) ((radixWord? base run).map .int)

/-- A run of `+` or `-` names a nameless label when only a closing bracket or the end of the text
follows it. -/
def namelessRun? (c : Char) (cs : List Char) : Option (Nat × List Char) :=
  let run := cs.takeWhile (· == c)
  let rest := cs.dropWhile (· == c)
  match rest.dropWhile isAsciiBlank with
  | [] => some (run.length, rest)
  | d :: _ => if d = ')' then some (run.length, rest) else none

/-- The part at the start of a text where an operand may start: an operand, an opening bracket or an
operator that stands before its operand. The text begins with `c`, at byte `offset`. -/
def operand (offset : Nat) (c : Char) (cs : List Char) : Except Error Reading :=
  if c = '(' then
    .ok ⟨.opening, 1, cs, .operand⟩
  else if c = '+' then
    match namelessRun? '+' (c :: cs) with
    | some (count, rest) => .ok ⟨.label (.forward count), count, rest, .operator⟩
    | none => .error (.unexpected "+" offset (offset + 1))
  else if c = '-' then
    match namelessRun? '-' (c :: cs) with
    | some (count, rest) => .ok ⟨.label (.backward count), count, rest, .operator⟩
    | none => .ok ⟨.unary .negate, 1, cs, .operand⟩
  else if c = '!' then
    .ok ⟨.unary .not, 1, cs, .operand⟩
  else if c = '<' then
    .ok ⟨.unary .lowByte, 1, cs, .operand⟩
  else if c = '>' then
    .ok ⟨.unary .highByte, 1, cs, .operand⟩
  else if c = '*' then
    .ok ⟨.label .here, 1, cs, .operator⟩
  else if c = '"' then
    match stringBody cs with
    | some (body, rest) =>
      .ok ⟨.string (String.ofList body), 1 + (byteLength cs - byteLength rest), rest, .operator⟩
    | none => .error (.unterminatedString offset)
  else if c = '\'' then
    match characterBody cs with
    | some (ch, rest) =>
      .ok ⟨.number (.int (Int64.ofNat ch.toNat)), 1 + (byteLength cs - byteLength rest), rest, .operator⟩
    | none => .error (.unterminatedString offset)
  else if c = '$' then
    radixLiteral offset 16 ['$'] cs
  else if c = '@' then
    radixLiteral offset 2 ['@'] cs
  else if c.isDigit then
    match c, cs with
    | '0', 'x' :: ds => radixLiteral offset 16 ['0', 'x'] ds
    | '0', 'X' :: ds => radixLiteral offset 16 ['0', 'X'] ds
    | _, _ => decimal
  else if c = '.' ∧ cs.head?.any Char.isDigit then
    decimal
  else if c.isAlpha || c = '_' || c = '.' then
    let run := (c :: cs).takeWhile isWordChar
    .ok ⟨.label (.named (String.ofList run)), byteLength run, (c :: cs).dropWhile isWordChar, .operator⟩
  else
    .error (.unexpected c.toString offset (offset + c.utf8Size))
where
  /-- The decimal literal at the start of the text. -/
  decimal : Except Error Reading :=
    let literal := (c :: cs).takeWhile isWordChar
    numberReading offset literal ((c :: cs).dropWhile isWordChar) (decimalNumber? literal)

/-- The operators between two operands, those of two characters first. -/
def operatorTable : List (List Char × BinaryOp) :=
  [(['<', '<'], .shl), (['>', '>'], .shr), (['<', '='], .le), (['>', '='], .ge), (['=', '='], .eq),
   (['!', '='], .ne), (['&', '&'], .and), (['|', '|'], .or), (['<'], .lt), (['>'], .gt), (['*'], .mul),
   (['/'], .div), (['%'], .rem), (['+'], .add), (['-'], .sub), (['&'], .bitAnd), (['^'], .bitXor),
   (['|'], .bitOr)]

/-- The part at the start of a text after an operand: a closing bracket or the first operator of the
table that the text begins with. -/
def operator (offset : Nat) (c : Char) (cs : List Char) : Except Error Reading :=
  if c = ')' then
    .ok ⟨.closing, 1, cs, .operator⟩
  else
    match operatorTable.find? fun entry => entry.1.isPrefixOf (c :: cs) with
    | some (symbol, op) => .ok ⟨.binary op, symbol.length, (c :: cs).drop symbol.length, .operand⟩
    | none => .error (.expectedOperator c.toString offset (offset + c.utf8Size))

def reading (e : Expectation) (offset : Nat) (c : Char) (cs : List Char) : Except Error Reading :=
  match e with
  | .operand => operand offset c cs
  | .operator => operator offset c cs

/-- The parts of the rest of a text that starts at byte `offset`. Every part takes at least one
character, so a bound of the text's length is never reached. -/
def splitFrom : Nat → Expectation → Nat → List Char → Except Error (List Part)
  | 0, _, _, _ => .ok []
  | bound + 1, e, offset, text =>
    let blanks := text.takeWhile isAsciiBlank
    let start := offset + blanks.length
    match text.dropWhile isAsciiBlank with
    | [] =>
      match e with
      | .operand => .error (.unexpectedEnd start)
      | .operator => .ok []
    | c :: cs => do
      let r ← reading e start c cs
      let parts ← splitFrom bound r.next (start + r.size) r.rest
      return ⟨r.kind, start, start + r.size⟩ :: parts

/-- The parts of an expression in the order they are written. -/
def split (text : List Char) : Except Error (List Part) :=
  if text.all isAsciiBlank then
    .error .empty
  else
    splitFrom (text.length + 1) .operand 0 text

end CrossAssembler.Expression
