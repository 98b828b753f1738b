import CrossAssembler.Files.Path
import CrossAssembler.Word

/-!
# What stands at a path

* `Files.bytesAt`, `Files.textAt` — the bytes and the text of a file.
-/

namespace CrossAssembler

/-- What stands at a path. -/
inductive PathEntry where
  | file (data : List UInt8)
  | folder
  | missing
  deriving DecidableEq, Repr

abbrev Files := Path → PathEntry

/-- Why a file cannot be used. -/
inductive FileError where
  | notFound (path : Path)
  | notText (path : Path)
  | outOfRange (start stop : Int64) (size : Nat)
  deriving DecidableEq, Repr

def FileError.message : FileError → String
  | notFound path => s!"file not found: '{path}'"
  | notText path => s!"'{path}' is not valid UTF-8 text"
  | outOfRange start stop size =>
    s!"range {start.toInt}..{stop.toInt} is outside the {size}-byte file"

/-- The text that bytes are the UTF-8 form of. -/
def decodeText? (data : List UInt8) : Option String := String.fromUTF8? ⟨data.toArray⟩

def Files.bytesAt (files : Files) (path : Path) : Except FileError (List UInt8) :=
  match files path with
  | .file data => .ok data
  | _ => .error (.notFound path)

def Files.textAt (files : Files) (path : Path) : Except FileError String :=
  match files.bytesAt path with
  | .error e => .error e
  | .ok data =>
    match decodeText? data with
    | some text => .ok text
    | none => .error (.notText path)

/-- The bytes from a start on, up to a length or to the end. -/
def window (data : List UInt8) (start length : Option Int64) : Except FileError (List UInt8) :=
  let first := start.getD 0
  let stop := match length with
    | some n => Word.clamp (first.toInt + n.toInt)
    | none => Int64.ofNat data.length
  if first < 0 ∨ stop < first ∨ Int64.ofNat data.length < stop then
    .error (.outOfRange first stop data.length)
  else
    .ok ((data.drop first.toInt.toNat).take (stop.toInt - first.toInt).toNat)

end CrossAssembler
