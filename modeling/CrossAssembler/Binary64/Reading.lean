/-!
# Reading a decimal

A decimal literal is digits with at most one point and an optional exponent mark. Its value is the
double nearest to the number that is written.
-/

namespace CrossAssembler.Binary64

/-- The number a list of decimal digits stands for. -/
def digitsValue (cs : List Char) : Nat :=
  cs.foldl (fun n c => 10 * n + (c.toNat - '0'.toNat)) 0

/-- The number `coefficient · 10^exponent`, with the digits it was written with. -/
structure Literal where
  digits : List Char
  exponent : Int
  deriving DecidableEq, Repr

namespace Literal

/-- The exponent after the digits: nothing, or `e` and a whole number. -/
def exponent? : List Char → Option Int
  | [] => some 0
  | mark :: rest =>
    if mark == 'e' || mark == 'E' then
      let (negative, digits) := match rest with
        | '-' :: ds => (true, ds)
        | '+' :: ds => (false, ds)
        | ds => (false, ds)
      if digits.isEmpty || !digits.all Char.isDigit then
        none
      else
        some (if negative then -(digitsValue digits : Int) else digitsValue digits)
    else
      none

/-- Reads digits, a point, digits and an exponent. One of the two groups of digits may be empty. -/
def read? (cs : List Char) : Option Literal :=
  let whole := cs.takeWhile Char.isDigit
  let rest := cs.dropWhile Char.isDigit
  let (places, tail) := match rest with
    | '.' :: more => (more.takeWhile Char.isDigit, more.dropWhile Char.isDigit)
    | _ => ([], rest)
  if whole.isEmpty && places.isEmpty then
    none
  else
    (exponent? tail).map fun e => ⟨whole ++ places, e - places.length⟩

/-- The double nearest to a literal, halves to the even neighbour. Beyond a few hundred places
every literal is an infinity or zero, so no larger power of ten is formed. -/
def nearest (l : Literal) : Float :=
  let coefficient := digitsValue l.digits
  let places := (l.digits.dropWhile (· == '0')).length
  if coefficient = 0 then
    0.0
  else if (places : Int) + l.exponent > 400 then
    1.0 / 0.0
  else if (places : Int) + l.exponent < -400 then
    0.0
  else
    Float.ofScientific coefficient (l.exponent < 0) l.exponent.natAbs

end Literal

end CrossAssembler.Binary64
