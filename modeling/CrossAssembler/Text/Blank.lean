/-!
# Blank characters

* `isAsciiBlank` — the five blanks that may stand between the parts of an expression.
-/

namespace CrossAssembler.Text

/-- The ranges of the Unicode property White_Space, both ends included. -/
def blankRanges : List (Nat × Nat) :=
  [(0x9, 0xD), (0x20, 0x20), (0x85, 0x85), (0xA0, 0xA0), (0x1680, 0x1680), (0x2000, 0x200A),
   (0x2028, 0x2029), (0x202F, 0x202F), (0x205F, 0x205F), (0x3000, 0x3000)]

/-- A character with the property White_Space. -/
def isBlank (c : Char) : Bool :=
  blankRanges.any fun r => r.1 ≤ c.toNat && c.toNat ≤ r.2

/-- Space, tab, line feed, form feed and carriage return. A vertical tab is none of them. -/
def isAsciiBlank (c : Char) : Bool :=
  c == ' ' || c == '\t' || c == '\n' || c == '\x0c' || c == '\r'

def trimStart (cs : List Char) : List Char := cs.dropWhile isBlank

/-- The characters before the trailing blanks. -/
def trimEnd (cs : List Char) : List Char := (cs.reverse.dropWhile isBlank).reverse

/-- The characters without the blanks at either end. -/
def trim (cs : List Char) : List Char := trimEnd (trimStart cs)

/-- Core's own blanks are blank. -/
theorem isBlank_of_isWhitespace {c : Char} (h : c.isWhitespace = true) : isBlank c = true := by
  simp only [Char.isWhitespace, Bool.or_eq_true, decide_eq_true_eq] at h
  rcases h with ((h | h) | h) | h <;> subst h <;> decide

end CrossAssembler.Text
