import CrossAssembler.Text.Blank
import CrossAssembler.Text.Quoting

/-!
# Operand patterns

An addressing mode is written as a pattern such as `([exp]),Y`: literal characters around
placeholders. Blanks and the case of letters do not count, neither in a pattern nor in an operand
outside quotes.

* `Pattern.ofText` — the literals around each placeholder of a pattern.
-/

namespace CrossAssembler

/-- An operand template: the literal characters before, between and after its placeholders. -/
structure Pattern where
  text : String
  first : List Char
  /-- One literal after each placeholder. -/
  others : List (List Char)
  deriving DecidableEq, Repr

namespace Pattern

/-- How a placeholder is written once letters are in upper case. -/
def placeholder : List Char := ['[', 'E', 'X', 'P', ']']

/-- The pieces of a text around each placeholder; `piece` holds the current one reversed. -/
def splitAtPlaceholders (piece : List Char) : List Char → List Char × List (List Char)
  | '[' :: 'E' :: 'X' :: 'P' :: ']' :: rest =>
    let (next, more) := splitAtPlaceholders [] rest
    (piece.reverse, next :: more)
  | c :: rest => splitAtPlaceholders (c :: piece) rest
  | [] => (piece.reverse, [])

def ofText (text : String) : Pattern :=
  let (first, others) :=
    splitAtPlaceholders [] ((text.toList.filter fun c => !Text.isBlank c).map Char.toUpper)
  ⟨text, first, others⟩

def placeholders (p : Pattern) : Nat := p.others.length

/-- How many literal characters a pattern has. -/
def literalLength (p : Pattern) : Nat := p.others.foldl (fun n part => n + part.length) p.first.length

end Pattern

namespace Operand

/-- A character of an operand: as it is compared, where it stands, and whether it is quoted. -/
structure Glyph where
  char : Char
  offset : Nat
  size : Nat
  quoted : Bool
  deriving DecidableEq, Repr

/-- The glyphs of the rest of an operand that starts at byte `offset`. -/
def viewFrom (q : Text.Quoting) (offset : Nat) : List Char → List Glyph
  | [] => []
  | c :: cs =>
    let rest := viewFrom (q.step c) (offset + c.utf8Size) cs
    if q.covers c then
      ⟨c, offset, c.utf8Size, true⟩ :: rest
    else if Text.isBlank c then
      rest
    else
      ⟨c.toUpper, offset, c.utf8Size, false⟩ :: rest

/-- An operand without the blanks outside quotes. -/
def view (operand : String) : List Glyph := viewFrom .outside 0 operand.toList

/-- Whether glyphs begin with a literal, none of it quoted. -/
def startsWith : List Char → List Glyph → Bool
  | [], _ => true
  | _ :: _, [] => false
  | c :: cs, g :: gs => !g.quoted && g.char == c && startsWith cs gs

/-- Brackets balance from a depth on and no comma stands outside them. -/
def isSingleFrom : Nat → List Glyph → Bool
  | depth, [] => depth == 0
  | depth, g :: gs =>
    if g.quoted then isSingleFrom depth gs
    else if g.char = ',' ∧ depth = 0 then false
    else if g.char = '(' ∨ g.char = '[' then isSingleFrom (depth + 1) gs
    else if g.char = ')' ∨ g.char = ']' then
      match depth with
      | 0 => false
      | d + 1 => isSingleFrom d gs
    else isSingleFrom depth gs

/-- Brackets balance and no comma stands outside them. -/
def isSingleExpression (gs : List Glyph) : Bool := isSingleFrom 0 gs

/-- The byte range of glyphs in the operand they come from. -/
def range (gs : List Glyph) : Nat × Nat :=
  ((gs.head?.map fun g => g.offset).getD 0, (gs.getLast?.map fun g => g.offset + g.size).getD 0)

end Operand

namespace Pattern

open Operand

/-- Whether a literal stands at a place of the glyphs with single expressions on both sides. -/
def dividesAt (literal : List Char) (gs : List Glyph) (place : Nat) : Bool :=
  startsWith literal (gs.drop place) && isSingleExpression (gs.take place) &&
    isSingleExpression (gs.drop (place + literal.length))

/-- The rightmost place at which a literal divides the glyphs into two parts that are not empty. -/
def divideRight? (literal : List Char) (gs : List Glyph) : Option Nat :=
  (List.range (gs.length - literal.length)).reverse.find? fun place =>
    1 ≤ place && dividesAt literal gs place

/-- The parts of the glyphs between literals, the last part first; the literals are given from the
right. -/
def partsFromRight : List (List Char) → List Glyph → Option (List (List Glyph))
  | [], gs => if gs.isEmpty || !isSingleExpression gs then none else some [gs]
  | literal :: literals, gs =>
    match divideRight? literal gs with
    | none => none
    | some place =>
      (partsFromRight literals (gs.take place)).map (gs.drop (place + literal.length) :: ·)

/-- The glyphs each placeholder stands for, in order, when the operand has the shape of the pattern. -/
def match? (p : Pattern) (gs : List Glyph) : Option (List (List Glyph)) :=
  match p.others.reverse with
  | [] => if gs.length == p.first.length && startsWith p.first gs then some [] else none
  | last :: middle =>
    if gs.length ≤ p.first.length + last.length then
      none
    else if !startsWith p.first gs || !startsWith last (gs.drop (gs.length - last.length)) then
      none
    else
      (partsFromRight middle ((gs.take (gs.length - last.length)).drop p.first.length)).map
        List.reverse

end Pattern

end CrossAssembler
