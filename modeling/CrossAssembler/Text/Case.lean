/-!
# Letter case

Only the 26 Latin letters have case here; every other character stands for itself.
-/

namespace CrossAssembler.Text

/-- The text with its Latin letters in lower case. -/
def lower (s : String) : String := String.ofList (s.toList.map Char.toLower)

/-- Whether two texts are equal up to the case of Latin letters. -/
def sameUpToCase (s t : String) : Bool := s.toList.map Char.toLower == t.toList.map Char.toLower

end CrossAssembler.Text
