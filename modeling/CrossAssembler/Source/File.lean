import CrossAssembler.Source.Span

/-!
# Source files

* `SourceStore` — sources by number; the number of a removed source is given to the next one added.
-/

namespace CrossAssembler

structure SourceFile where
  name : String
  text : String
  deriving DecidableEq, Repr

/-- A line of a source: its number from 1, the byte it starts at, and its text. -/
structure SourceLine where
  number : Nat
  offset : Nat
  text : List Char
  deriving DecidableEq, Repr

/-- Line and column some bytes after a place with the given line and column. -/
def positionFrom (line column : Nat) : Nat → List Char → Nat × Nat
  | bytes, [] => (line, column + bytes)
  | bytes, c :: cs =>
    if bytes < c.utf8Size then (line, column + bytes)
    else if c = '\n' then positionFrom (line + 1) 1 (bytes - c.utf8Size) cs
    else positionFrom line (column + c.utf8Size) (bytes - c.utf8Size) cs

/-- A line without one carriage return at its end. -/
def withoutReturn (line : List Char) : List Char :=
  if line.getLast? = some '\r' then line.dropLast else line

/-- The lines of a text; `line` holds the current one reversed, which began at byte `start`. -/
def linesFrom (number start offset : Nat) (line : List Char) : List Char → List SourceLine
  | [] => [⟨number, start, withoutReturn line.reverse⟩]
  | c :: cs =>
    if c = '\n' then
      ⟨number, start, withoutReturn line.reverse⟩ :: linesFrom (number + 1) (offset + 1) (offset + 1) [] cs
    else
      linesFrom number start (offset + c.utf8Size) (c :: line) cs

namespace SourceFile

/-- Line and column of a byte offset, both from 1. -/
def position (f : SourceFile) (offset : Nat) : Nat × Nat := positionFrom 1 1 offset f.text.toList

/-- The lines of a source without their line ends. -/
def lines (f : SourceFile) : List SourceLine := linesFrom 1 0 0 [] f.text.toList

end SourceFile

/-- Sources by number, and the numbers free for reuse with the last one freed first. -/
structure SourceStore where
  files : Array SourceFile
  free : List SourceId
  deriving Repr

namespace SourceStore

def empty : SourceStore := ⟨#[], []⟩

/-- Adds a source under the number freed last, or under a new one. -/
def add (s : SourceStore) (name text : String) : SourceId × SourceStore :=
  match s.free with
  | id :: free => (id, ⟨s.files.setIfInBounds id ⟨name, text⟩, free⟩)
  | [] => (s.files.size, ⟨s.files.push ⟨name, text⟩, []⟩)

/-- Drops a source and frees its number. A number that is free or was never used is left alone. -/
def remove (s : SourceStore) (id : SourceId) : SourceStore :=
  if id < s.files.size && !s.free.contains id then
    ⟨s.files.setIfInBounds id ⟨"", ""⟩, id :: s.free⟩
  else
    s

def size (s : SourceStore) : Nat := s.files.size

def get? (s : SourceStore) (id : SourceId) : Option SourceFile := s.files[id]?

def name (s : SourceStore) (id : SourceId) : String :=
  match s.get? id with
  | some f => f.name
  | none => "<unknown>"

end SourceStore

end CrossAssembler
