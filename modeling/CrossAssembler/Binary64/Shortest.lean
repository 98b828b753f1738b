import CrossAssembler.Binary64.View

/-!
# The shortest decimal that reads back

A finite double `m · 2^q` stands for every real that rounds to it. Its text is the decimal with the
fewest digits among those reals, and of two such decimals the nearer one.
-/

namespace CrossAssembler.Binary64

/-- The number `coefficient · 10^exponent`. -/
structure Decimal where
  coefficient : Nat
  exponent : Int
  deriving DecidableEq, Repr

/-- The decimal on the grid of `10^e` that reads back as `m · 2^q`. Of two neighbours that both do,
the nearer is taken, and the upper one when they are equally near. -/
def onGrid (m : Nat) (q e : Int) : Option Decimal :=
  -- All sizes are counted in units of `2^(q-2) / (scale · 10^e)`.
  let up := Nat.pow 2 (q - 2).toNat * Nat.pow 10 (-e).toNat
  let grid := Nat.pow 2 (2 - q).toNat * Nat.pow 10 e.toNat
  let value := 4 * m * up
  let below := (if m = Nat.pow 2 52 ∧ leastExponent < q then 4 * m - 1 else 4 * m - 2) * up
  let above := (4 * m + 2) * up
  let closed := m % 2 = 0
  let floor := value / grid
  let lower := floor * grid
  let upper := lower + grid
  let lowerFits := below < lower ∨ closed ∧ below = lower
  let upperFits := upper < above ∨ closed ∧ upper = above
  if lowerFits ∧ (¬upperFits ∨ 2 * (value - lower) < grid) then
    some ⟨floor, e⟩
  else if upperFits then
    some ⟨floor + 1, e⟩
  else
    none

/-- The first power of ten that is certainly no smaller than `m · 2^q`. -/
def coarsest (m : Nat) (q : Int) : Int :=
  ((Nat.log2 m : Int) + 1 + q) * 30103 / 100000 + 2

/-- The decimal with the fewest digits that reads back as `m · 2^q`. Seventeen digits are always
enough, so the search ends within the 24 grids it looks at. -/
def shortest (m : Nat) (q : Int) : Decimal :=
  if m = 0 then
    ⟨0, 0⟩
  else
    ((List.range 24).findSome? fun (i : Nat) => onGrid m q (coarsest m q - i)).getD ⟨0, 0⟩

/-- The digits of a decimal, with a point where it has a fraction. -/
def Decimal.positional (d : Decimal) : String :=
  let digits := Nat.toDigits 10 d.coefficient
  if 0 ≤ d.exponent then
    String.ofList (if d.coefficient = 0 then digits else digits ++ List.replicate d.exponent.toNat '0')
  else
    let places := (-d.exponent).toNat
    let padded := List.replicate (places + 1 - digits.length) '0' ++ digits
    let whole := padded.length - places
    String.ofList (padded.take whole ++ '.' :: padded.drop whole)

/-- The text of a double: the shortest decimal that reads back, without an exponent. -/
def text (x : Binary64) : String :=
  match view x with
  | .nan => "NaN"
  | .infinity negative => if negative then "-inf" else "inf"
  | .finite negative m q =>
    (if negative then "-" else "") ++ (shortest m q).positional

end CrossAssembler.Binary64
