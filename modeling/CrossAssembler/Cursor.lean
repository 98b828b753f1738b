/-!
# Where output goes

* `Cursor.org` — the address of the next byte.
* `Cursor.base` — the offset of the next byte in the output.
-/

namespace CrossAssembler

/-- The address and the output offset of the next byte, where they have been set. -/
structure Cursor where
  address : Option Int64
  output : Option Int64
  deriving DecidableEq, Repr

namespace Cursor

def start : Cursor := ⟨none, none⟩

def org (c : Cursor) : Int64 := (c.address <|> c.output).getD 0

def base (c : Cursor) : Int64 := (c.output <|> c.address).getD 0

/-- How far the output offset is from the address. -/
def offset (c : Cursor) : Int64 := c.base - c.org

/-- Moves the address; the first move of either moves both. -/
def setOrg (c : Cursor) (n : Int64) : Cursor := ⟨some n, some (c.output.getD n)⟩

/-- Moves the output offset; the first move of either moves both. -/
def setBase (c : Cursor) (n : Int64) : Cursor := ⟨some (c.address.getD n), some n⟩

def advance (c : Cursor) (count : Nat) : Cursor :=
  ⟨some (c.org + Int64.ofNat count), some (c.base + Int64.ofNat count)⟩

end Cursor

end CrossAssembler
