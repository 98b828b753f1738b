/-!
# Quoted text

A single or double quote opens a literal that runs to the next quote of its kind; inside it a
backslash takes the next character along.

* `Quoting.step` — how a character changes where reading stands.
-/

namespace CrossAssembler.Text

/-- Where reading stands: outside literals, or inside one with the quote that ends it and whether the
next character is escaped. -/
inductive Quoting where
  | outside
  | inside (quote : Char) (escaped : Bool)
  deriving DecidableEq, Repr

namespace Quoting

def isQuote (c : Char) : Bool := c == '"' || c == '\''

def step : Quoting → Char → Quoting
  | outside, c => if isQuote c then inside c false else outside
  | inside quote true, _ => inside quote false
  | inside quote false, c =>
    if c = '\\' then inside quote true
    else if c = quote then outside
    else inside quote false

/-- Whether a character read in a state belongs to a literal. -/
def covers (q : Quoting) (c : Char) : Bool := q != outside || isQuote c

end Quoting

end CrossAssembler.Text
