import CrossAssembler.Source.Span
import CrossAssembler.Text.Blank
import CrossAssembler.Text.Bytes
import CrossAssembler.Text.Quoting

/-!
# Text with its place

* `Token.slice`, `Token.trimmed` — parts of a token, in their places.
-/

namespace CrossAssembler

open Text

/-- A piece of source text. Lines count from 1; columns and offsets count bytes from 0, in the line
and in the source. -/
structure Token where
  source : SourceId
  line : Nat
  column : Nat
  offset : Nat
  text : String
  deriving DecidableEq, Repr

/-- How deep in brackets a place is, and whether it is inside a literal. -/
structure Nesting where
  quoting : Quoting
  depth : Nat
  deriving DecidableEq, Repr

namespace Nesting

def start : Nesting := ⟨.outside, 0⟩

/-- Round, square and curly brackets that open. -/
def opens (c : Char) : Bool := c == '(' || c == '[' || c == '\x7b'

/-- Round, square and curly brackets that close. -/
def closes (c : Char) : Bool := c == ')' || c == ']' || c == '\x7d'

/-- The place after a character. A bracket that closes nothing does not count. -/
def step (n : Nesting) (c : Char) : Nesting :=
  let quoting := n.quoting.step c
  if n.quoting.covers c then ⟨quoting, n.depth⟩
  else if opens c then ⟨quoting, n.depth + 1⟩
  else if closes c then ⟨quoting, n.depth - 1⟩
  else ⟨quoting, n.depth⟩

/-- Whether a character stands outside literals and brackets and is none of their marks. -/
def isFree (n : Nesting) (c : Char) : Bool :=
  !n.quoting.covers c && !opens c && !closes c && n.depth == 0

end Nesting

/-- The pieces of a text between free separators. -/
def piecesFrom (separator : Char) (n : Nesting) : List Char → List (List Char)
  | [] => [[]]
  | c :: cs =>
    let rest := piecesFrom separator (n.step c) cs
    if n.isFree c && c == separator then
      [] :: rest
    else
      match rest with
      | [] => [[c]]
      | piece :: pieces => (c :: piece) :: pieces

def cutAtFirst? (separator : Char) (n : Nesting) : List Char → Option (List Char × List Char)
  | [] => none
  | c :: cs =>
    if n.isFree c && c == separator then
      some ([], cs)
    else
      (cutAtFirst? separator (n.step c) cs).map fun (before, after) => (c :: before, after)

/-- A line cut at the first semicolon outside literals: its content, and the comment after it. -/
def splitComment (q : Quoting) : List Char → List Char × Option (List Char)
  | [] => ([], none)
  | c :: cs =>
    if q == .outside && c == ';' then
      ([], some cs)
    else
      let (content, comment) := splitComment (q.step c) cs
      (c :: content, comment)

namespace Token

def span (t : Token) : Span := ⟨t.source, t.offset, t.offset + t.text.utf8ByteSize⟩

/-- The span of a byte range of a token, kept within the token. -/
def subSpan (t : Token) (start stop : Nat) : Span :=
  let size := t.text.utf8ByteSize
  let first := min start size
  ⟨t.source, t.offset + first, t.offset + max first (min stop size)⟩

def isEmpty (t : Token) : Bool := t.text.isEmpty

/-- Text that stands some bytes after the start of a token. -/
def place (t : Token) (skipped : Nat) (cs : List Char) : Token :=
  { t with column := t.column + skipped, offset := t.offset + skipped, text := String.ofList cs }

def slice (t : Token) (start stop : Nat) : Token :=
  t.place start (sliceBytes start stop t.text.toList)

def sliceFrom (t : Token) (start : Nat) : Token := t.slice start t.text.utf8ByteSize

/-- A token without the blanks around it. A blank token ends up empty at its end. -/
def trimmed (t : Token) : Token :=
  let cs := t.text.toList
  t.place (byteLength (cs.takeWhile isBlank)) (trim cs)

/-- Pieces in their places, one after the other with a separator of the given size between them. -/
def placeAll (t : Token) (gap : Nat) : Nat → List (List Char) → List Token
  | _, [] => []
  | skipped, piece :: pieces =>
    (t.place skipped piece).trimmed :: placeAll t gap (skipped + byteLength piece + gap) pieces

/-- The pieces between separators outside quotes and brackets, without the blanks around them. A blank
token has no pieces. -/
def splitTopLevel (t : Token) (separator : Char) : List Token :=
  let cs := t.text.toList
  if cs.all isBlank then
    []
  else
    t.placeAll separator.utf8Size 0 (piecesFrom separator .start cs)

/-- The first word, which a blank or comma ends, and what follows it without one comma between. -/
def splitFirstWord (t : Token) : Token × Token :=
  let whole := t.trimmed
  let cs := whole.text.toList
  let word := cs.takeWhile fun c => !(isBlank c || c == ',')
  let rest := (whole.sliceFrom (byteLength word)).trimmed
  let tail := if rest.text.toList.head? = some ',' then (rest.sliceFrom 1).trimmed else rest
  (whole.place 0 word, tail)

/-- A token without one colon at its end and the blanks before it. -/
def withoutColon (t : Token) : Token :=
  let cs := t.text.toList
  if cs.getLast? = some ':' then (t.place 0 cs.dropLast).trimmed else t

end Token

end CrossAssembler
