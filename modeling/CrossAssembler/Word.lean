/-!
# Signed 64-bit words

Addresses and integer values are signed 64-bit words. Arithmetic that must not wrap is done on
unbounded integers and brought back by `ofInt?`.

* `clamp` — the nearest word.
-/

namespace CrossAssembler.Word

def least : Int := -0x8000000000000000

def greatest : Int := 0x7FFFFFFFFFFFFFFF

def count : Nat := 0x10000000000000000

/-- The word for an integer, if it is in range. -/
def ofInt? (n : Int) : Option Int64 :=
  if least ≤ n ∧ n ≤ greatest then some (Int64.ofInt n) else none

def clamp (n : Int) : Int64 := Int64.ofInt (max least (min greatest n))

/-- Digits of a number in base two or sixteen, the letters in upper case. -/
def digits (base n : Nat) : String :=
  String.ofList ((Nat.toDigits base n).map Char.toUpper)

/-- The two's-complement hexadecimal digits of a word. -/
def hexText (w : Int64) : String := digits 16 w.toUInt64.toNat

/-- The two's-complement binary digits of a word. -/
def binaryText (w : Int64) : String := digits 2 w.toUInt64.toNat

/-- The number a list of digits stands for in a base, or `none` when one is no digit of it. -/
def readDigits? (base : Nat) (cs : List Char) : Option Nat :=
  cs.foldlM (fun n c => (digit? c).bind fun d => if d < base then some (n * base + d) else none) 0
where
  /-- The value of a digit or letter. -/
  digit? (c : Char) : Option Nat :=
    if '0' ≤ c ∧ c ≤ '9' then some (c.toNat - '0'.toNat)
    else if 'a' ≤ c ∧ c ≤ 'z' then some (c.toNat - 'a'.toNat + 10)
    else if 'A' ≤ c ∧ c ≤ 'Z' then some (c.toNat - 'A'.toNat + 10)
    else none

/-- The number below a limit that decimal digits stand for. A plus sign may stand before them. -/
def readNat? (limit : Nat) (cs : List Char) : Option Nat :=
  let digits := match cs with
    | '+' :: rest => rest
    | _ => cs
  if digits.isEmpty then none else (readDigits? 10 digits).filter fun n => n < limit

end CrossAssembler.Word
