/-!
# Label names

* `LabelId`, `ScopeId` — the numbers of labels and scopes.
-/

namespace CrossAssembler

abbrev LabelId := Nat

abbrev ScopeId := Nat

def globalScope : ScopeId := 0

/-- How far a name reaches. -/
inductive NameScope where
  | global
  /-- A name that starts with a dot. -/
  | local
  /-- A run of plus or minus signs. -/
  | nameless
  deriving DecidableEq, Repr

namespace NameScope

/-- The characters of a name after its first. -/
def isTail (c : Char) : Bool := c.isAlphanum || c == '_' || c == '.'

/-- Whether two dots stand side by side or a dot stands at the end. -/
def hasLooseDot : List Char → Bool
  | [] => false
  | ['.'] => true
  | '.' :: '.' :: _ => true
  | _ :: cs => hasLooseDot cs

/-- How far a name reaches, or `none` when it is no label name. -/
def ofChars? (cs : List Char) : Option NameScope :=
  match cs with
  | [] => none
  | c :: rest =>
    if cs.all (· == '+') || cs.all (· == '-') then some nameless
    else if hasLooseDot cs then none
    else if c = '.' then if rest.all isTail then some .local else none
    else if (c.isAlpha || c == '_') && rest.all isTail then some global
    else none

/-- How far a name reaches, or `none` when it is no label name. -/
def ofName? (name : String) : Option NameScope := ofChars? name.toList

end NameScope

end CrossAssembler
