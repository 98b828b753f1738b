/-!
# Paths

A path is written with slashes. Two paths are the same when their steps are: repeated slashes, slashes
at the end and inner dots make no step, and a step up is never resolved.

* `Path.steps` — the steps of a path.
-/

namespace CrossAssembler

abbrev Path := String

namespace Path

/-- A step of a path. -/
inductive Step where
  /-- A slash at the start. -/
  | root
  /-- A dot at the start. -/
  | here
  | up
  | name (text : String)
  deriving DecidableEq, Repr

/-- The place of a step's sort in the order of paths. -/
def Step.rank : Step → Nat
  | root => 0
  | here => 1
  | up => 2
  | name _ => 3

/-- Orders steps: a root, a dot, a step up, then names. -/
def Step.compare : Step → Step → Ordering
  | name a, name b => Ord.compare a b
  | a, b => Ord.compare a.rank b.rank

def pieces : List Char → List (List Char)
  | [] => [[]]
  | c :: cs =>
    if c = '/' then
      [] :: pieces cs
    else
      match pieces cs with
      | [] => [[c]]
      | p :: ps => (c :: p) :: ps

def Step.ofPiece? : List Char → Option Step
  | [] => none
  | ['.'] => none
  | ['.', '.'] => some up
  | cs => some (name (String.ofList cs))

/-- The step at the start of a path, before its names. -/
def Step.lead? : List Char → Option Step
  | '/' :: _ => some root
  | ['.'] => some here
  | '.' :: '/' :: _ => some here
  | _ => none

def steps (p : Path) : List Step :=
  let cs := p.toList
  (Step.lead? cs).toList ++ (pieces cs).filterMap Step.ofPiece?

def same (p q : Path) : Bool := p.steps == q.steps

/-- Whether a path starts with the steps of another. -/
def isWithin (p folder : Path) : Bool := folder.steps.isPrefixOf p.steps

def compareSteps : List Step → List Step → Ordering
  | [], [] => .eq
  | [], _ :: _ => .lt
  | _ :: _, [] => .gt
  | a :: as, b :: bs => (a.compare b).then (compareSteps as bs)

def compare (p q : Path) : Ordering := compareSteps p.steps q.steps

/-- The end of a reversed text without pieces that make no step. -/
def trimEnd : List Char → List Char
  | '/' :: cs => trimEnd cs
  | '.' :: '/' :: cs => trimEnd cs
  | ['.'] => []
  | cs => cs

/-- A reversed text after its lead without its last step. -/
def dropStep (body : List Char) : List Char :=
  trimEnd ((trimEnd body).dropWhile (· != '/'))

/-- A path without its last step, written as before. -/
def parent? (p : Path) : Option Path :=
  let cs := p.toList
  match Step.lead? cs with
  | some lead =>
    let body := cs.drop 1
    if ((pieces body).filterMap Step.ofPiece?).isEmpty then
      if lead = .here then some "" else none
    else
      some (String.ofList (cs.take 1 ++ (dropStep body.reverse).reverse))
  | none =>
    if ((pieces cs).filterMap Step.ofPiece?).isEmpty then none
    else some (String.ofList (dropStep cs.reverse).reverse)

/-- A path continued by another. A path from the root replaces the one before it. -/
def join (p q : Path) : Path :=
  if q.toList.head? = some '/' || p.isEmpty then q
  else if p.toList.getLast? = some '/' then p ++ q
  else p ++ "/" ++ q

/-- The last step of a path, when it is a name. -/
def fileName? (p : Path) : Option String :=
  match p.steps.getLast? with
  | some (.name text) => some text
  | _ => none

end Path

end CrossAssembler
