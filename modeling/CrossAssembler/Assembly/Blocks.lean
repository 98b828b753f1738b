import CrossAssembler.Assembly.Basic

/-!
# Blocks

Lines are put into their block structure before anything else is done with them. The lines of a
conditional become its branches; the lines of every other block are kept as they are.

* `Assembly.arrange` — lines in their block structure.
-/

namespace CrossAssembler

/-- The lines up to the one that ends a block, that line, and the lines after it. Blocks of the same
family inside are passed over; `depth` of them are open. -/
def splitAtCloser (directive? : LineId → Option Directive) (closer : Directive) (depth : Nat) :
    List LineId → Option (List LineId × LineId × List LineId)
  | [] => none
  | id :: rest =>
    match directive? id with
    | none =>
      (splitAtCloser directive? closer depth rest).map fun (body, stop, after) => (id :: body, stop, after)
    | some d =>
      if d.opens closer then
        (splitAtCloser directive? closer (depth + 1) rest).map fun (body, stop, after) =>
          (id :: body, stop, after)
      else if d = closer then
        match depth with
        | 0 => some ([], id, rest)
        | depth + 1 =>
          (splitAtCloser directive? closer depth rest).map fun (body, stop, after) =>
            (id :: body, stop, after)
      else
        (splitAtCloser directive? closer depth rest).map fun (body, stop, after) =>
          (id :: body, stop, after)

/-- The lines of a conditional divided into branches. -/
structure Division where
  /-- The lines before the first divider. -/
  first : List LineId
  /-- Each divider with the lines after it. -/
  branches : List (LineId × List LineId)
  /-- Dividers after the last branch has begun. -/
  rejected : List LineId
  deriving DecidableEq, Repr

def Division.cons (id : LineId) (d : Division) : Division := { d with first := id :: d.first }

/-- Divides the lines of a conditional at its dividers. Conditionals inside are passed over; `depth` of
them are open. `complete` tells whether the branch without a condition has begun. -/
def divide (directive? : LineId → Option Directive) (depth : Nat) (complete : Bool) :
    List LineId → Division
  | [] => ⟨[], [], []⟩
  | id :: rest =>
    match directive? id with
    | none => (divide directive? depth complete rest).cons id
    | some d =>
      if d.isConditional then
        (divide directive? (depth + 1) complete rest).cons id
      else if d = .endWhen then
        (divide directive? (depth - 1) complete rest).cons id
      else if (d = .elseWhen ∨ d = .otherwise) ∧ depth = 0 then
        if complete then
          let after := divide directive? depth complete rest
          { after with rejected := id :: after.rejected }
        else
          let after := divide directive? depth (d == .otherwise) rest
          { after with first := [], branches := (id, after.first) :: after.branches }
      else
        (divide directive? depth complete rest).cons id

namespace Assembly

/-- Reports a wrong number of arguments of a directive. -/
def checkArguments (s : Assembly) (id : LineId) : Assembly :=
  match (s.line id).command? with
  | none => s
  | some part =>
    let spec := part.directive.spec
    let count := part.arguments.length
    if count < spec.least then
      s.fail id part.keyword.span s!"{spec.name} expects at least {spec.least} argument(s), found {count}"
    else
      match spec.most with
      | some most =>
        if most < count then
          s.fail id part.keyword.span s!"{spec.name} expects at most {most} argument(s), found {count}"
        else
          s
      | none => s

/-- Whether a line may have the label in front of it; if not, that is reported. -/
def checkLabel (s : Assembly) (id : LineId) : Bool × Assembly :=
  let line := s.line id
  match line.label, line.directive? with
  | some label, some d =>
    if d.spec.allowsLabel then (true, s)
    else (false, s.fail id label.span s!"{d.name} cannot have a label")
  | _, _ => (true, s)

def closeBlock (s : Assembly) (id : LineId) : Assembly :=
  ((s.checkArguments id).checkLabel id).2.mark id .finished

def rejectDividers (s : Assembly) (ids : List LineId) : Assembly :=
  ids.foldl (fun s id =>
    let line := s.line id
    match line.directive? with
    | some d => s.fail id line.origin.span s!"{d.name} after .ELSE"
    | none => s) s

/-- Puts the lines of branches into their block structure. -/
def arrangeBranches (arrange : Assembly → List LineId → List Item × Assembly) (s : Assembly) :
    List (LineId × List LineId) → List (LineId × List Item) × Assembly
  | [] => ([], s)
  | (header, body) :: rest =>
    let (items, s) := arrange s body
    let (branches, s) := arrangeBranches arrange s rest
    ((header, items) :: branches, s)

def arrangeBlock (arrange : Assembly → List LineId → List Item × Assembly) (s : Assembly) (id : LineId)
    (d : Directive) (body : List LineId) (stop : LineId) : Item × Assembly :=
  let s := s.closeBlock stop
  if d.isConditional then
    let division := divide (fun id => (s.line id).directive?) 0 false body
    let s := s.rejectDividers division.rejected
    let (branches, s) := arrangeBranches arrange s ((id, division.first) :: division.branches)
    (.conditional id branches,
      s.modifyLine id fun l => l.modifyCommand fun part => { part with closer := some stop })
  else
    (.line id, s.modifyLine id fun l => l.modifyCommand fun part =>
      { part with body := some body, closer := some stop })

/-- Whether a directive has no meaning outside a block. -/
def needsBlock (d : Directive) : Bool := d.isCloser || d == .elseWhen || d == .otherwise

/-- Puts lines into their block structure, for at most the given number of lines. -/
def arrangeWithin : Nat → Assembly → List LineId → List Item × Assembly
  | 0, s, _ => ([], s)
  | _ + 1, s, [] => ([], s)
  | bound + 1, s, id :: rest =>
    let line := s.line id
    match line.command?, line.isSkipped with
    | some part, false =>
      match part.directive.spec.closer with
      | some closer =>
        match splitAtCloser (fun id => (s.line id).directive?) closer 0 rest with
        | none =>
          let s := s.fail id part.keyword.span s!"{part.directive.name} without a matching {closer.name}"
          (.line id :: rest.map Item.line, rest.foldl (fun s id => s.mark id .ignored) s)
        | some (body, stop, after) =>
          let (item, s) := arrangeBlock (arrangeWithin bound) s id part.directive body stop
          let (items, s) := arrangeWithin bound s after
          (item :: items, s)
      | none =>
        let s :=
          if needsBlock part.directive then
            s.fail id part.keyword.span s!"{part.directive.name} without a matching block start"
          else
            s
        let (items, s) := arrangeWithin bound s rest
        (.line id :: items, s)
    | _, _ =>
      let (items, s) := arrangeWithin bound s rest
      (.line id :: items, s)

def arrange (s : Assembly) (ids : List LineId) : List Item × Assembly := arrangeWithin ids.length s ids

end Assembly

end CrossAssembler
