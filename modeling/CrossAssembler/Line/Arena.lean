import CrossAssembler.Line.Basic

/-!
# Lines by number

Lines of files and copies of them made by macros and repetitions are kept together. A released number
is handed out again, the lowest first among those released together.

* `Arena.release` — frees numbers.
-/

namespace CrossAssembler

/-- Lines by number, and the numbers free for reuse with the next one first. -/
structure Arena where
  lines : Array Line
  free : List LineId
  deriving Repr

namespace Arena

def empty : Arena := ⟨#[], []⟩

def size (a : Arena) : Nat := a.lines.size

def get (a : Arena) (id : LineId) : Line := a.lines[id]?.getD Line.vacant

def modify (a : Arena) (id : LineId) (f : Line → Line) : Arena :=
  { a with lines := a.lines.modify id f }

/-- Gives a line a free number, or a new one. -/
def push (a : Arena) (l : Line) : LineId × Arena :=
  match a.free with
  | id :: free => (id, ⟨a.lines.setIfInBounds id l, free⟩)
  | [] => (a.lines.size, ⟨a.lines.push l, []⟩)

def pushAll (a : Arena) : List Line → List LineId × Arena
  | [] => ([], a)
  | l :: ls =>
    let (id, a) := a.push l
    let (ids, a) := a.pushAll ls
    (id :: ids, a)

/-- The numbers of the lines in the scopes that a test accepts. Lines of the global scope belong to
nobody. -/
def ownedBy (a : Arena) (owned : ScopeId → Bool) : List LineId :=
  (List.range a.lines.size).filter fun id =>
    let scope := (a.get id).scope
    scope != globalScope && owned scope

def releaseOne (a : Arena) (id : LineId) : Arena :=
  if a.free.contains id then a else ⟨a.lines.setIfInBounds id Line.vacant, id :: a.free⟩

def release (a : Arena) (ids : List LineId) : Arena :=
  (ids.mergeSort fun i j => j ≤ i).eraseReps.foldl releaseOne a

/-- Fresh copies of lines in a scope, in order. -/
def instantiate (a : Arena) (template : List LineId) (scope : ScopeId) : List LineId × Arena :=
  match template with
  | [] => ([], a)
  | id :: ids =>
    let (copy, a) := a.push ((a.get id).copyTo scope)
    let (copies, a) := a.instantiate ids scope
    (copy :: copies, a)

end Arena

end CrossAssembler
