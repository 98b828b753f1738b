/-!
# TOML documents

A document is a list of headers and assignments. This module holds what they are made of, and the text that
stands between them.

* `Toml.skipGaps`, `Toml.skipSpace` — the text after blanks on one line, and over several lines.
-/

namespace CrossAssembler.Toml

/-- A value. Fractions and points in time are kept as they are written. -/
inductive Value where
  | text (s : String)
  | integer (n : Int)
  | boolean (b : Bool)
  | float (written : String)
  | moment (written : String)
  | list (items : List Value)
  | table (entries : List (List String × Value))
  deriving Repr

/-- A line of a document. Keys are lists of names, the outermost first. -/
inductive Statement where
  | header (keys : List String)
  | listHeader (keys : List String)
  | assign (keys : List String) (value : Value)
  deriving Repr

def isGap (c : Char) : Bool := c == ' ' || c == '\t'

def skipGaps (cs : List Char) : List Char := cs.dropWhile isGap

/-- A character that may stand in strings and comments: a tab, or none of the control characters. -/
def isPlain (c : Char) : Bool := c == '\t' || (0x20 ≤ c.toNat && c.toNat != 0x7F)

def afterNewline? : List Char → Option (List Char)
  | '\n' :: rest => some rest
  | '\r' :: '\n' :: rest => some rest
  | _ => none

/-- The text after a comment, or all of it when there is none. -/
def skipComment : List Char → List Char
  | '#' :: rest => rest.dropWhile isPlain
  | cs => cs

/-- The text after the rest of a line, which may hold a comment only. -/
def endLine? (cs : List Char) : Option (List Char) :=
  match skipComment (skipGaps cs) with
  | [] => some []
  | rest => afterNewline? rest

/-- The text after gaps, comments and at most so many line ends. -/
def skipLines : Nat → List Char → List Char
  | 0, cs => cs
  | bound + 1, cs =>
    let rest := skipComment (skipGaps cs)
    match afterNewline? rest with
    | some rest => skipLines bound rest
    | none => rest

/-- The text after gaps, comments and line ends. -/
def skipSpace (cs : List Char) : List Char := skipLines (cs.length + 1) cs

end CrossAssembler.Toml
