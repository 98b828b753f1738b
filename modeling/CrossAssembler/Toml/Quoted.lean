import CrossAssembler.Toml.Basic
import CrossAssembler.Word

/-!
# Strings of a TOML document

Strings stand between one or three quotes of either kind. Between double quotes a backslash starts an
escape; between three quotes a string may go over several lines and keeps its line ends as they are.

* `Toml.string?` — the string at the start of a text.
-/

namespace CrossAssembler.Toml

/-- The character with a code written in so many hexadecimal digits, and the text after them. -/
def codedChar? (digits : Nat) (cs : List Char) : Option (Char × List Char) :=
  if cs.length < digits then
    none
  else
    (Word.readDigits? 16 (cs.take digits)).bind fun n =>
      if n.isValidChar then some (Char.ofNat n, cs.drop digits) else none

/-- The character of an escape, after its backslash, and the text after it. -/
def escape? : List Char → Option (Char × List Char)
  | 'b' :: rest => some ('\x08', rest)
  | 't' :: rest => some ('\t', rest)
  | 'n' :: rest => some ('\n', rest)
  | 'f' :: rest => some ('\x0c', rest)
  | 'r' :: rest => some ('\r', rest)
  | 'e' :: rest => some ('\x1b', rest)
  | '"' :: rest => some ('"', rest)
  | '\\' :: rest => some ('\\', rest)
  | 'x' :: rest => codedChar? 2 rest
  | 'u' :: rest => codedChar? 4 rest
  | 'U' :: rest => codedChar? 8 rest
  | _ => none

/-- The rest of a string on one line after its opening quote. -/
def basicString? : Nat → List Char → Option (List Char × List Char)
  | 0, _ => none
  | _ + 1, [] => none
  | bound + 1, c :: rest =>
    if c = '"' then
      some ([], rest)
    else if c = '\\' then do
      let (c, rest) ← escape? rest
      let (s, rest) ← basicString? bound rest
      some (c :: s, rest)
    else if isPlain c then do
      let (s, rest) ← basicString? bound rest
      some (c :: s, rest)
    else
      none

/-- The rest of a string without escapes on one line after its opening quote. -/
def literalString? (cs : List Char) : Option (List Char × List Char) :=
  let s := cs.takeWhile fun c => c != '\'' && isPlain c
  match cs.drop s.length with
  | '\'' :: rest => some (s, rest)
  | _ => none

def skipBlankLines : List Char → List Char
  | '\r' :: '\n' :: rest => skipBlankLines rest
  | c :: rest => if isGap c || c == '\n' then skipBlankLines rest else c :: rest
  | [] => []

/-- The text after a backslash at the end of a line, which takes the blanks after it with it. -/
def joinLines? (cs : List Char) : Option (List Char) := (afterNewline? (skipGaps cs)).map skipBlankLines

/-- The rest of a string over several lines after its opening quotes. Up to two quotes may stand before
the closing ones. -/
def longString? (quote : Char) : Nat → List Char → Option (List Char × List Char)
  | 0, _ => none
  | _ + 1, [] => none
  | bound + 1, c :: rest =>
    if c = quote then
      let run := ((c :: rest).takeWhile (· == quote)).length
      if run < 3 then do
        let (s, rest) ← longString? quote bound rest
        some (c :: s, rest)
      else if run ≤ 5 then
        some (List.replicate (run - 3) quote, (c :: rest).drop run)
      else
        none
    else if c = '\\' && quote == '"' then
      match joinLines? rest with
      | some rest => longString? quote bound rest
      | none => do
        let (c, rest) ← escape? rest
        let (s, rest) ← longString? quote bound rest
        some (c :: s, rest)
    else if isPlain c || c == '\n' || (c == '\r' && rest.head? == some '\n') then do
      let (s, rest) ← longString? quote bound rest
      some (c :: s, rest)
    else
      none

/-- A string over several lines without the line end right after its opening quotes. -/
def longBody? (quote : Char) (cs : List Char) : Option (List Char × List Char) :=
  let body := (afterNewline? cs).getD cs
  longString? quote (body.length + 1) body

def string? : List Char → Option (List Char × List Char)
  | '"' :: '"' :: '"' :: rest => longBody? '"' rest
  | '\'' :: '\'' :: '\'' :: rest => longBody? '\'' rest
  | '"' :: rest => basicString? (rest.length + 1) rest
  | '\'' :: rest => literalString? rest
  | _ => none

end CrossAssembler.Toml
