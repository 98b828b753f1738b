import CrossAssembler.Line.Basic
import Std.Data.TreeMap

/-!
# The output image

An image holds a byte at some offsets and nothing at the others.
-/

namespace CrossAssembler

/-- The bytes written so far and the size reserved for them. -/
structure Image where
  bytes : Std.TreeMap Nat UInt8
  size : Nat

namespace Image

/-- The largest size of an image: 16 MiB. -/
def limit : Nat := 0x1000000

/-- Why bytes cannot be written. -/
inductive Error where
  | negative (offset : Int64)
  | tooLarge (offset : Int64)
  deriving DecidableEq, Repr

def Error.message : Error → String
  | negative offset => s!"output offset {offset.toInt} is negative"
  | tooLarge offset =>
    s!"output offset ${Word.hexText offset} is beyond the ${Word.hexText (Int64.ofNat limit)}-byte image limit"

def empty : Image := ⟨∅, 0⟩

/-- Puts the known bytes of some cells at an offset. -/
def put (bytes : Std.TreeMap Nat UInt8) (offset : Nat) : List Cell → Std.TreeMap Nat UInt8
  | [] => bytes
  | none :: cells => put bytes (offset + 1) cells
  | some b :: cells => put (bytes.insert offset b) (offset + 1) cells

/-- Writes cells at an offset. A cell without a byte reserves its place and keeps what is there. -/
def write (i : Image) (offset : Int64) (cells : List Cell) : Except Error Image :=
  if cells.isEmpty then
    .ok i
  else if offset < 0 then
    .error (.negative offset)
  else
    let start := offset.toInt.toNat
    let stop := start + cells.length
    if limit < stop then
      .error (.tooLarge (Int64.ofNat (stop - 1)))
    else
      .ok ⟨put i.bytes start cells, max i.size stop⟩

def get? (i : Image) (offset : Nat) : Option UInt8 := i.bytes[offset]?

def isEmpty (i : Image) : Bool := i.bytes.isEmpty

/-- The smallest range with all written bytes: its first offset and the one after its last. -/
def writtenRange? (i : Image) : Option (Nat × Nat) :=
  match i.bytes.minKey?, i.bytes.maxKey? with
  | some first, some last => some (first, last + 1)
  | _, _ => none

/-- The bytes up to the last written one, from the start or from the first written one, with a filler
where nothing was written. -/
def flatten (i : Image) (fill : UInt8) (trim : Bool) : List UInt8 :=
  match i.writtenRange? with
  | none => []
  | some (first, stop) =>
    let start := if trim then first else 0
    (List.range' start (stop - start)).map fun offset => (i.get? offset).getD fill

/-- Every offset within the size: its byte, or -1 where nothing was written. -/
def toSigned (i : Image) : List Int :=
  (List.range i.size).map fun offset =>
    match i.get? offset with
    | some b => (b.toNat : Int)
    | none => -1

/-- Puts a byte in front of the runs that follow it. -/
def consRun (offset : Nat) (byte : UInt8) : List (Nat × List UInt8) → List (Nat × List UInt8)
  | (start, run) :: runs =>
    if start = offset + 1 then (offset, byte :: run) :: runs else (offset, [byte]) :: (start, run) :: runs
  | [] => [(offset, [byte])]

/-- The written bytes in runs without a gap, each with its offset. -/
def runs (i : Image) : List (Nat × List UInt8) :=
  i.bytes.foldr (fun offset byte rest => consRun offset byte rest) []

end Image

end CrossAssembler
