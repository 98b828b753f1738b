import CrossAssembler.Text.Blank
import CrossAssembler.Text.Bytes

/-!
# Pieces of a line

A line is cut into coarse pieces: words, numbers, literals and a few signs. Each piece is the longest
that fits. Where none fits, the characters that could have begun one are set aside, at least one.

* `scan` — all pieces of a text.
-/

namespace CrossAssembler

inductive Piece.Kind where
  | equalEqual | notEqual | lessEqual | greaterEqual | equal | colon | comma
  | string | character | number | word
  /-- Characters that make no piece. -/
  | other
  deriving DecidableEq, Repr

/-- A piece with its byte range. -/
structure Piece where
  kind : Piece.Kind
  start : Nat
  stop : Nat
  deriving DecidableEq, Repr

namespace Piece

open Text

/-- Space, tab, carriage return and form feed separate pieces. -/
def isGap (c : Char) : Bool := c == ' ' || c == '\t' || c == '\r' || c == '\x0c'

def isHexDigit (c : Char) : Bool :=
  c.isDigit || ('a' ≤ c && c ≤ 'f') || ('A' ≤ c && c ≤ 'F')

def startsWord (c : Char) : Bool := c.isAlpha || c == '_' || c == '.'

def continuesWord (c : Char) : Bool := c.isAlphanum || c == '_' || c == '.'

/-- The rest of a string literal after its opening quote: how many of the characters belong to it, and
whether it is closed. -/
def stringRest : List Char → Nat × Bool
  | [] => (0, false)
  | '"' :: _ => (1, true)
  | ['\\'] => (1, false)
  | '\\' :: '\n' :: _ => (1, false)
  | '\\' :: _ :: rest =>
    let (n, closed) := stringRest rest
    (n + 2, closed)
  | _ :: rest =>
    let (n, closed) := stringRest rest
    (n + 1, closed)

/-- The rest of a character literal after its opening quote. -/
def characterRest : List Char → Nat × Bool
  | [] => (0, false)
  | '\'' :: _ => (0, false)
  | ['\\'] => (1, false)
  | '\\' :: '\n' :: _ => (1, false)
  | '\\' :: _ :: '\'' :: _ => (3, true)
  | '\\' :: _ :: _ => (2, false)
  | _ :: '\'' :: _ => (2, true)
  | _ :: _ => (1, false)

/-- A literal of some kind if it is closed, otherwise characters that make no piece. -/
def literal (kind : Kind) (rest : Nat × Bool) : Kind × Nat :=
  (if rest.2 then kind else .other, rest.1 + 1)

/-- A number after a radix mark, or the mark alone. -/
def marked (isDigit : Char → Bool) (cs : List Char) : Kind × Nat :=
  match cs.takeWhile isDigit with
  | [] => (.other, 1)
  | digits => (.number, digits.length + 1)

/-- A sign that may be followed by an equals sign. -/
def sign (alone double : Kind) (cs : List Char) : Kind × Nat :=
  if cs.head? = some '=' then (double, 2) else (alone, 1)

/-- The piece at the start of a text and how many characters it has. -/
def leading (c : Char) (cs : List Char) : Kind × Nat :=
  if c = '=' then sign .equal .equalEqual cs
  else if c = '!' then sign .other .notEqual cs
  else if c = '<' then sign .other .lessEqual cs
  else if c = '>' then sign .other .greaterEqual cs
  else if c = ':' then (.colon, 1)
  else if c = ',' then (.comma, 1)
  else if c = '"' then literal .string (stringRest cs)
  else if c = '\'' then literal .character (characterRest cs)
  else if c = '$' then marked isHexDigit cs
  else if c = '@' then marked (fun d => d == '0' || d == '1') cs
  else if c.isDigit then (.number, (cs.takeWhile continuesWord).length + 1)
  else if startsWord c then (.word, (cs.takeWhile continuesWord).length + 1)
  else (.other, 1)

/-- The pieces of the rest of a text that starts at byte `offset`. Every piece takes at least one
character, so a bound of the text's length is never reached. -/
def scanFrom : Nat → Nat → List Char → List Piece
  | 0, _, _ => []
  | bound + 1, offset, text =>
    let start := offset + (text.takeWhile isGap).length
    match text.dropWhile isGap with
    | [] => []
    | c :: cs =>
      let (kind, count) := leading c cs
      let stop := start + byteLength ((c :: cs).take count)
      ⟨kind, start, stop⟩ :: scanFrom bound stop ((c :: cs).drop count)

def scan (text : List Char) : List Piece := scanFrom text.length 0 text

def text (source : List Char) (p : Piece) : String := String.ofList (sliceBytes p.start p.stop source)

/-- The words of a text with their byte ranges. -/
def words (source : List Char) : List (String × Piece) :=
  ((scan source).filter fun p => p.kind == .word).map fun p => (p.text source, p)

end Piece

end CrossAssembler
