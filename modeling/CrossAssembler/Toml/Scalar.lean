import CrossAssembler.Toml.Basic
import CrossAssembler.Word

/-!
# Values of a TOML document without quotes

Integers, fractions, truth values, and dates and times of day. Underscores may stand between digits.

* `Toml.integer?` — the integer a word stands for.
-/

namespace CrossAssembler.Toml

def isBare (c : Char) : Bool := c.isAlphanum || c == '_' || c == '-'

def isScalarChar (c : Char) : Bool := isBare c || c == '+' || c == '.' || c == ':'

/-- The digits of a number without the underscores between them. -/
def joinDigits? (cs : List Char) : Option (List Char) :=
  let loose := cs.head? = some '_' || cs.getLast? = some '_'
  let double := (cs.zip cs.tail).any fun p => p.1 == '_' && p.2 == '_'
  if cs.isEmpty || loose || double then none else some (cs.filter (· != '_'))

def based? (base : Nat) (cs : List Char) : Option Int := do
  let n ← Word.readDigits? base (← joinDigits? cs)
  some n

/-- An integer written in decimal digits without zeros before them. -/
def decimal? (cs : List Char) : Option Int := do
  let digits ← joinDigits? cs
  if digits.length ≠ 1 && digits.head? = some '0' then none
  based? 10 cs

def integer? : List Char → Option Int
  | '0' :: 'x' :: cs => based? 16 cs
  | '0' :: 'o' :: cs => based? 8 cs
  | '0' :: 'b' :: cs => based? 2 cs
  | '+' :: cs => decimal? cs
  | '-' :: cs => (decimal? cs).map fun n => -n
  | cs => decimal? cs

def unsigned : List Char → List Char
  | '+' :: cs | '-' :: cs => cs
  | cs => cs

/-- A digit, or an underscore between digits. -/
def isDigitChar (c : Char) : Bool := c.isDigit || c == '_'

/-- Whether a word is an exponent: its mark and an integer that may start with zeros. -/
def isExponent : List Char → Bool
  | 'e' :: cs | 'E' :: cs => (based? 10 (unsigned cs)).isSome
  | _ => false

/-- Whether a word is a fraction: decimal digits with places, an exponent or both. -/
def isFloat (word : List Char) : Bool :=
  match unsigned word with
  | ['i', 'n', 'f'] | ['n', 'a', 'n'] => true
  | cs =>
    (decimal? (cs.takeWhile isDigitChar)).isSome &&
      match cs.dropWhile isDigitChar with
      | '.' :: rest =>
        (based? 10 (rest.takeWhile isDigitChar)).isSome &&
          let tail := rest.dropWhile isDigitChar
          tail.isEmpty || isExponent tail
      | tail => isExponent tail

/-- The number written in exactly so many digits, and the text after them. -/
def field? (digits : Nat) (cs : List Char) : Option (Nat × List Char) :=
  if cs.length < digits then
    none
  else
    (Word.readDigits? 10 (cs.take digits)).map fun n => (n, cs.drop digits)

/-- The text after a character that has to stand at the start. -/
def after? (c : Char) : List Char → Option (List Char)
  | d :: rest => if d = c then some rest else none
  | [] => none

def daysIn (year month : Nat) : Nat :=
  if month = 2 then
    if year % 4 = 0 && (year % 100 ≠ 0 || year % 400 = 0) then 29 else 28
  else if month = 4 || month = 6 || month = 9 || month = 11 then
    30
  else
    31

def afterDate? (cs : List Char) : Option (List Char) := do
  let (year, rest) ← field? 4 cs
  let (month, rest) ← field? 2 (← after? '-' rest)
  let (day, rest) ← field? 2 (← after? '-' rest)
  if 1 ≤ month && month ≤ 12 && 1 ≤ day && day ≤ daysIn year month then some rest else none

def afterClock? (cs : List Char) : Option (List Char) := do
  let (hour, rest) ← field? 2 cs
  let (minute, rest) ← field? 2 (← after? ':' rest)
  if hour ≤ 23 && minute ≤ 59 then some rest else none

def afterPlaces? : List Char → Option (List Char)
  | '.' :: rest =>
    if (rest.takeWhile Char.isDigit).isEmpty then none else some (rest.dropWhile Char.isDigit)
  | cs => some cs

/-- The text after a time of day. Its seconds may be left out. -/
def afterTime? (cs : List Char) : Option (List Char) := do
  match ← afterClock? cs with
  | ':' :: rest =>
    let (second, rest) ← field? 2 rest
    if second ≤ 60 then afterPlaces? rest else none
  | rest => some rest

/-- Whether a word is a distance from the universal time, or nothing. -/
def isOffset : List Char → Bool
  | [] | ['Z'] | ['z'] => true
  | '+' :: cs | '-' :: cs => afterClock? cs == some []
  | _ => false

def isDate (word : List Char) : Bool := afterDate? word == some []

/-- Whether a word is a time of day with or without an offset. -/
def isZonedTime (word : List Char) : Bool := (afterTime? word).any isOffset

/-- Whether a word is a date, a time of day or both with a letter between them. -/
def isMoment (word : List Char) : Bool :=
  afterTime? word == some [] ||
    match afterDate? word with
    | some [] => true
    | some ('T' :: time) | some ('t' :: time) => isZonedTime time
    | _ => false

def wordValue? (word : List Char) : Option Value :=
  if word = ['t', 'r', 'u', 'e'] then
    some (.boolean true)
  else if word = ['f', 'a', 'l', 's', 'e'] then
    some (.boolean false)
  else
    match integer? word with
    | some n => some (.integer n)
    | none =>
      if isFloat word then some (.float (String.ofList word))
      else if isMoment word then some (.moment (String.ofList word))
      else none

/-- The value at the start of a text. A space may stand between a date and a time of day. -/
def scalar? (cs : List Char) : Option (Value × List Char) :=
  let word := cs.takeWhile isScalarChar
  match isDate word, cs.drop word.length with
  | true, ' ' :: rest =>
    let time := rest.takeWhile isScalarChar
    if isZonedTime time then
      some (.moment (String.ofList (word ++ ' ' :: time)), rest.drop time.length)
    else
      (wordValue? word).map fun v => (v, ' ' :: rest)
  | _, rest => (wordValue? word).map fun v => (v, rest)

end CrossAssembler.Toml
