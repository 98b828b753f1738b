/-!
# Binary64 numbers as integers times powers of two

Every finite double is `± m · 2^q`. Questions about fractions, integer parts and decimal text are
answered on `m` and `q` in exact integer arithmetic.
-/

namespace CrossAssembler

/-- A double by its bits. The many bit patterns that are not a number are different values here, so each
is kept as it was given. -/
structure Binary64 where
  bits : UInt64
  deriving DecidableEq, Repr

namespace Binary64

def toFloat (x : Binary64) : Float := Float.ofBits x.bits

def ofFloat (x : Float) : Binary64 := ⟨x.toBits⟩

/-- What a double is: not a number, an infinity, or `± mantissa · 2^exponent`. -/
inductive View where
  | nan
  | infinity (negative : Bool)
  | finite (negative : Bool) (mantissa : Nat) (exponent : Int)
  deriving DecidableEq, Repr

/-- The exponent of the smallest step between doubles. -/
def leastExponent : Int := -1074

/-- Splits a double into sign, mantissa and exponent. -/
def view (x : Binary64) : View :=
  let bits : Nat := x.bits.toNat
  let negative := bits / Nat.pow 2 63 == 1
  let field : Nat := bits / Nat.pow 2 52 % Nat.pow 2 11
  let fraction : Nat := bits % Nat.pow 2 52
  if field = 2047 then
    if fraction = 0 then .infinity negative else .nan
  else if field = 0 then
    .finite negative fraction leastExponent
  else
    .finite negative (Nat.pow 2 52 + fraction) ((field : Int) - 1075)

def signed (negative : Bool) (size : Nat) : Int :=
  if negative then -(size : Int) else size

namespace View

/-- The integer a view stands for; `none` for a fraction, an infinity or not a number. -/
def integer? : View → Option Int
  | .finite negative m q =>
    if 0 ≤ q then
      some (signed negative (m * Nat.pow 2 q.toNat))
    else if m % Nat.pow 2 (-q).toNat = 0 then
      some (signed negative (m / Nat.pow 2 (-q).toNat))
    else
      none
  | _ => none

def isFinite : View → Bool
  | .finite .. => true
  | _ => false

/-- The integer part, cut toward zero and kept between `lo` and `hi`. Not a number counts as 0. -/
def truncated (lo hi : Int) : View → Int
  | .nan => 0
  | .infinity negative => if negative then lo else hi
  | .finite negative m q =>
    let size := if 0 ≤ q then m * Nat.pow 2 q.toNat else m / Nat.pow 2 (-q).toNat
    max lo (min hi (signed negative size))

end View

end Binary64

end CrossAssembler
