/-!
# Dotted names
-/

namespace CrossAssembler.Text

def splitAtLastDot (cs : List Char) : Option (List Char × List Char) :=
  if cs.contains '.' then
    let after := (cs.reverse.takeWhile (· != '.')).reverse
    some (cs.take (cs.length - after.length - 1), after)
  else
    none

end CrossAssembler.Text
