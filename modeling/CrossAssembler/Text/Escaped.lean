import CrossAssembler.Text.Hidden

/-!
# Text between quotes

* `escaped` — a text between double quotes, with its quotes, backslashes and characters without a
  visible form replaced by escapes.
-/

namespace CrossAssembler.Text

def escapedChar (c : Char) : List Char :=
  if c = '\x00' then ['\\', '0']
  else if c = '\t' then ['\\', 't']
  else if c = '\r' then ['\\', 'r']
  else if c = '\n' then ['\\', 'n']
  else if c = '"' || c = '\\' then ['\\', c]
  else if isHidden c then ['\\', 'u', '\x7b'] ++ Nat.toDigits 16 c.toNat ++ ['\x7d']
  else [c]

def escaped (text : String) : String :=
  String.ofList ('"' :: text.toList.flatMap escapedChar ++ ['"'])

end CrossAssembler.Text
