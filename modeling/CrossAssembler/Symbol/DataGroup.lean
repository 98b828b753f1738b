import CrossAssembler.Line.Basic

/-!
# Macros and data groups

* `MacroDefinition` — a named list of lines with parameters.
* `DataGroup` — where each name stands among the cells of a block of data.
-/

namespace CrossAssembler

/-- A macro. Its lines are kept as they are; every call works on copies. -/
structure MacroDefinition where
  name : String
  parameters : List String
  body : List LineId
  source : SourceId
  token : Token
  deriving DecidableEq, Repr

/-- The names used in a block of data, each with its places: a token and the number of a cell. -/
structure DataGroup where
  owner : String
  source : SourceId
  index : List (String × List (Token × Nat))
  deriving DecidableEq, Repr

namespace DataGroup

def empty (owner : String) (source : SourceId) : DataGroup := ⟨owner, source, []⟩

/-- Adds a place to the list of a name; a new name comes last. -/
def recordIn (name : String) (place : Token × Nat) :
    List (String × List (Token × Nat)) → List (String × List (Token × Nat))
  | [] => [(name, [place])]
  | (n, places) :: rest =>
    if n = name then (n, places ++ [place]) :: rest else (n, places) :: recordIn name place rest

def record (g : DataGroup) (name : String) (token : Token) (element : Nat) : DataGroup :=
  { g with index := recordIn name (token, element) g.index }

def occurrences (g : DataGroup) (name : String) : List (Token × Nat) := (g.index.lookup name).getD []

def elementOf? (g : DataGroup) (name : String) : Option Nat := (g.occurrences name).head?.map (·.2)

end DataGroup

end CrossAssembler
