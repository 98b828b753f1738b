import CrossAssembler.Assembly.Output

/-!
# Branches

In every pass a conditional chooses a branch anew. A branch is analysed when it is chosen for the first
time; its labels are hidden when another one is chosen, and shown again when it comes back.
-/

namespace CrossAssembler.Assembly

/-- What a conditional has kept about its branches. -/
def branchState? (s : Assembly) (id : LineId) : Option BranchState :=
  match s.directiveState id with
  | .branches state => some state
  | _ => none

def hide (s : Assembly) (labels : List LabelId) : Assembly :=
  { s with symbols := labels.foldl SymbolTable.unbind s.symbols }

/-- The lines below a line that is no conditional. -/
def linesBelow (l : Line) : List (List Item) :=
  match l.kind with
  | .call part => (part.expansion.map fun e => e.items).toList
  | .command part =>
    match part.state with
    | .repeated iterations => iterations.getD []
    | .included _ items => [items]
    | _ => []
  | _ => []

mutual

/-- Hides what the branches in use below an item have made. -/
def retractItem (inner : Assembly → List Item → Assembly) : Item → Assembly → Assembly
  | .line id, s => (linesBelow (s.line id)).foldl inner s
  | .conditional id branches, s =>
    match s.branchState? id with
    | none => s
    | some state =>
      match state.active with
      | none => s
      | some index =>
        let s := s.setDirectiveState id (.branches { state with active := none })
        retractBranch inner index branches (s.hide (state.bound.getD index []))
termination_by structural item => item

/-- Hides what the branches in use below items have made. -/
def retractItems (inner : Assembly → List Item → Assembly) : List Item → Assembly → Assembly
  | [], s => s
  | item :: items, s => retractItems inner items (retractItem inner item s)
termination_by structural items => items

/-- Hides what the branches in use inside a branch have made. -/
def retractBranch (inner : Assembly → List Item → Assembly) :
    Nat → List (LineId × List Item) → Assembly → Assembly
  | _, [], s => s
  | 0, branch :: _, s => retractBody inner branch s
  | index + 1, _ :: branches, s => retractBranch inner index branches s
termination_by structural _ branches => branches

/-- Hides what the branches in use in the body of a branch have made. -/
def retractBody (inner : Assembly → List Item → Assembly) : LineId × List Item → Assembly → Assembly
  | (_, body), s => retractItems inner body s
termination_by structural branch => branch

end

/-- Hides what the branches in use below lines have made, through at most the given number of calls,
repetitions and included files. -/
def retractWithin : Nat → Assembly → List Item → Assembly
  | 0, s, _ => s
  | bound + 1, s, items => retractItems (retractWithin bound) items s

/-- Hides what the branches in use below lines have made. -/
def retract (s : Assembly) (items : List Item) : Assembly := retractWithin nestingLimit s items

/-- Hides the labels of the branch in use, with those of the branches inside it. -/
def leaveBranch (s : Assembly) (state : BranchState) (branches : List (LineId × List Item)) : Assembly :=
  match state.active with
  | none => s
  | some index =>
    let s := s.hide (state.bound.getD index [])
    match branches[index]? with
    | some (_, body) => s.retract body
    | none => s

/-- The first branch whose condition holds. There is none when all fail or one is not known. -/
def chooseBranch (s : Assembly) (id : LineId) (index : Nat) : List LineId → Option Nat × Assembly
  | [] => (none, s)
  | header :: headers =>
    let s := if header = id then s else s.beginLine header
    match (s.line header).command? with
    | none => (none, s)
    | some part =>
      match part.directive with
      | .otherwise => (some index, s)
      | .whenDefined | .whenUndefined =>
        match part.arguments with
        | [] => (none, s)
        | name :: _ =>
          let defined := (s.symbols.findLabel? name.text (s.line header).scope).isSome
          if defined == (part.directive == .whenDefined) then (some index, s)
          else s.chooseBranch id (index + 1) headers
      | _ =>
        match part.expression? 0, part.arguments with
        | some e, token :: _ =>
          match s.evaluate header e token with
          | (.known value, s) =>
            if value.isTruthy then (some index, s) else s.chooseBranch id (index + 1) headers
          | (_, s) => (none, s)
        | _, _ => (none, s)

/-- Shows labels again; one whose name is taken by now is reported. -/
def showAgain (s : Assembly) (id : LineId) (labels : List LabelId) : Assembly :=
  labels.foldl (fun s label =>
    match s.symbols.rebind label with
    | .ok symbols => { s with symbols }
    | .error e => s.symbolError id e (s.symbols.label label).token.span) s

/-- Analyses lines and gives the labels they made, in order. -/
def analyzeRecording (s : Assembly) (items : List Item) : List LabelId × Assembly :=
  let s := { s with recorders := [] :: s.recorders }.analyze items
  match s.recorders with
  | made :: outer => (made.reverse, { s with recorders := outer })
  | [] => ([], s)

/-- Makes the lines of a branch live: analyses them, or shows the labels they made before. -/
def enterBranch (s : Assembly) (id : LineId) (state : BranchState) (index : Nat) (body : List Item) :
    BranchState × Assembly :=
  if state.activated.getD index false then
    (state, s.showAgain id (state.bound.getD index []))
  else
    let (made, s) := s.analyzeRecording body
    ({ state with activated := state.activated.set index true, bound := state.bound.set index made }, s)

/-- Chooses a branch of a conditional and puts it in the place of the one before. -/
def switchBranch (s : Assembly) (id : LineId) (branches : List (LineId × List Item)) :
    Option Nat × Assembly :=
  match s.branchState? id with
  | none => (none, s)
  | some state =>
    let s := s.leaveBranch state branches
    let state := { state with active := none }
    match s.chooseBranch id 0 (branches.map fun b => b.1) with
    | (none, s) => (none, s.setDirectiveState id (.branches state))
    | (some index, s) =>
      let body := ((branches[index]?).map fun b => b.2).getD []
      let (state, s) := s.enterBranch id state index body
      (some index, s.setDirectiveState id (.branches { state with active := some index }))

end CrossAssembler.Assembly
