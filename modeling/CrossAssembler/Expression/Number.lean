import CrossAssembler.Binary64.Shortest
import CrossAssembler.Expression.Error
import CrossAssembler.Word

/-!
# Numbers

A number is a signed 64-bit word or a double. Operations on two words are exact or refused;
operations with a double are done in doubles, and a result without a fraction becomes a word again.

* `Number.add`, `sub`, `mul`, `div`, `rem`, `shl`, `shr`, `bitAnd`, `bitXor`, `bitOr`, `neg`.
-/

namespace CrossAssembler

open Expression (Error)

/-- A 64-bit word, or a double that is no word. -/
inductive Number where
  | int (value : Int64)
  | real (value : Binary64)
  deriving Repr

namespace Number

/-- Words equal words and doubles equal doubles, the latter as doubles compare. -/
instance : BEq Number where
  beq
    | int a, int b => a == b
    | real a, real b => a.toFloat == b.toFloat
    | _, _ => false

/-- The double nearest to a word, halves to the even neighbour. -/
def floatOfWord (n : Int64) : Float := .ofModel (.ofInt64 n)

def toFloat : Number → Float
  | int n => floatOfWord n
  | real x => x.toFloat

/-- The word for an integer with magnitude at most 2^63; the upper end counts as the greatest word. -/
def wordWithin? (n : Int) : Option Int64 :=
  if Word.least ≤ n ∧ n ≤ Word.greatest + 1 then some (Word.clamp n) else none

/-- The word a number stands for; `none` for a fraction or a double out of range. -/
def toWord? : Number → Option Int64
  | int n => some n
  | real x => x.view.integer?.bind wordWithin?

/-- The integer part toward zero, kept within the range of a word. -/
def truncated : Number → Int64
  | int n => n
  | real x => Int64.ofInt (x.view.truncated Word.least Word.greatest)

/-- Whether a number counts as true: everything but zero does. -/
def isTruthy : Number → Bool
  | int n => n != 0
  | real x => !(x.toFloat == 0.0)

/-- The number for a double: a word when it has no fraction and fits, refused when it is not finite. -/
def ofFloat (x : Float) : Except Error Number :=
  let d := Binary64.ofFloat x
  if d.view.isFinite then
    match d.view.integer?.bind wordWithin? with
    | some n => .ok (int n)
    | none => .ok (real d)
  else
    .error .overflow

def ofInt (n : Int) : Except Error Number :=
  match Word.ofInt? n with
  | some w => .ok (int w)
  | none => .error .overflow

def add : Number → Number → Except Error Number
  | int a, int b => ofInt (a.toInt + b.toInt)
  | a, b => ofFloat (a.toFloat + b.toFloat)

def sub : Number → Number → Except Error Number
  | int a, int b => ofInt (a.toInt - b.toInt)
  | a, b => ofFloat (a.toFloat - b.toFloat)

def mul : Number → Number → Except Error Number
  | int a, int b => ofInt (a.toInt * b.toInt)
  | a, b => ofFloat (a.toFloat * b.toFloat)

/-- The quotient: a word when it is exact, otherwise a double. -/
def div (a b : Number) : Except Error Number :=
  if b.toFloat == 0.0 then
    .error .divisionByZero
  else
    match a, b with
    | int m, int n =>
      if Int.tmod m.toInt n.toInt = 0 then
        ofInt (Int.tdiv m.toInt n.toInt)
      else
        ofFloat (floatOfWord m / floatOfWord n)
    | a, b => ofFloat (a.toFloat / b.toFloat)

/-- Both operands as words, for an operator that takes nothing else. -/
def words (operator : String) (a b : Number) : Except Error (Int64 × Int64) :=
  match a.toWord?, b.toWord? with
  | some m, some n => .ok (m, n)
  | _, _ => .error (.integerRequired operator)

/-- The remainder with the sign of the dividend. The least word has no remainder by -1. -/
def rem (a b : Number) : Except Error Number := do
  let (m, n) ← words "%" a b
  if n = 0 then
    .error .divisionByZero
  else if m.toInt = Word.least ∧ n.toInt = -1 then
    .error .overflow
  else
    ofInt (Int.tmod m.toInt n.toInt)

/-- A shift by less than the width of a word. -/
def shift (operator : String) (f : Int64 → Int64 → Int64) (a b : Number) : Except Error Number := do
  let (m, n) ← words operator a b
  if 0 ≤ n.toInt ∧ n.toInt < 64 then
    .ok (int (f m n))
  else
    .error .overflow

/-- The bits moved up; those that leave the word are lost. -/
def shl (a b : Number) : Except Error Number := shift "<<" (· <<< ·) a b

def shr (a b : Number) : Except Error Number := shift ">>" (· >>> ·) a b

def bitwise (operator : String) (f : Int64 → Int64 → Int64) (a b : Number) : Except Error Number := do
  let (m, n) ← words operator a b
  .ok (int (f m n))

def bitAnd (a b : Number) : Except Error Number := bitwise "&" (· &&& ·) a b

def bitXor (a b : Number) : Except Error Number := bitwise "^" (· ^^^ ·) a b

def bitOr (a b : Number) : Except Error Number := bitwise "|" (· ||| ·) a b

def neg : Number → Except Error Number
  | int n => ofInt (-n.toInt)
  | real x => ofFloat (-x.toFloat)

/-- Bits 0 to 7 of the integer part. -/
def lowByte (a : Number) : Number := int (a.truncated &&& 0xFF)

/-- Bits 8 to 15 of the integer part. -/
def highByte (a : Number) : Number := int ((a.truncated >>> 8) &&& 0xFF)

def text : Number → String
  | int n => toString n.toInt
  | real x => x.text

end Number

end CrossAssembler
