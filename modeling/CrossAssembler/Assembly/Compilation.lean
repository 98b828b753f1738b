import CrossAssembler.Assembly.Branches

/-!
# Compiling

* `Assembly.runPass` — compiles all files once.
-/

namespace CrossAssembler.Assembly

/-- The largest number of iterations of a repetition. -/
def repetitionLimit : Int64 := 0x10000

/-- Copies the lines of a repetition into a scope of their own and analyses them. -/
def addIteration (s : Assembly) (parent : ScopeId) (body : List LineId) : List Item × Assembly :=
  let (scope, symbols) := s.symbols.addScope .iteration parent (s.symbols.scope parent).source
  let (ids, lines) := s.lines.instantiate body scope
  let (items, s) := { s with symbols, lines }.arrange ids
  (items, s.analyze items)

/-- Copies the lines of a repetition for each of its iterations, one level deeper. -/
def iterate (s : Assembly) (id : LineId) (part : Line.CommandPart) (count : Nat) :
    List (List Item) × Assembly :=
  let parent := (s.line id).scope
  let (iterations, s) := (List.range count).foldl (fun (iterations, s) _ =>
    let (items, s) := addIteration s parent (part.body.getD [])
    (items :: iterations, s)) (([] : List (List Item)), s.openCall)
  (iterations.reverse, s.closeCall)

/-- Compiles iterations up to the first that halts. -/
def compileIterations (inner : Assembly → List Item → Flow × Assembly) (s : Assembly) :
    List (List Item) → Assembly
  | [] => s
  | items :: rest =>
    match inner s items with
    | (.halt, s) => s
    | (.next, s) => compileIterations inner s rest

/-- Compiles a repetition. Its count is evaluated in the first pass in which it is known; later passes
compile the same copies. -/
def compileRepetition (inner : Assembly → List Item → Flow × Assembly) (s : Assembly) (id : LineId)
    (part : Line.CommandPart) : Assembly :=
  let run (s : Assembly) (iterations : List (List Item)) : Assembly :=
    (compileIterations inner s.openCall iterations).closeCall
  match part.state with
  | .repeated (some iterations) => run s iterations
  | _ =>
    match s.argumentWord id 0 with
    | (.known count, s) =>
      let span := (s.line id).origin.span
      if count < 0 ∨ repetitionLimit < count then
        (s.fail id span s!"repeat count {count.toInt} is outside 0..={repetitionLimit.toInt}").setDirectiveState
          id .none
      else if expansionLimit ≤ s.depth then
        (s.fail id span "repeat blocks are nested too deeply").setDirectiveState id .none
      else
        let (iterations, s) := s.iterate id part count.toInt.toNat
        run (s.setDirectiveState id (.repeated (some iterations))) iterations
    | (_, s) => s.setDirectiveState id (.repeated none)

def compileInclude (inner : Assembly → List Item → Flow × Assembly) (s : Assembly)
    (part : Line.CommandPart) : Assembly :=
  match part.state with
  | .included path items => (inner (s.openFile path) items).2.closeFile
  | _ => s

/-- Gives the parameters of a call the values of its arguments. -/
def passArguments (s : Assembly) (id : LineId) : List ((Token × Option Expression) × LabelId) → Assembly
  | [] => s
  | ((token, e), label) :: rest =>
    let (value, s) : Option Value × Assembly := match e with
      | some e =>
        let (answer, s) := s.evaluate id e token
        (answer.value?, s)
      | none => (none, s)
    (s.setLabelValue label value).passArguments id rest

def compileCall (inner : Assembly → List Item → Flow × Assembly) (s : Assembly) (id : LineId)
    (part : Line.CallPart) : Assembly :=
  match part.expansion with
  | none => s
  | some expansion =>
    let s := s.passArguments id ((part.arguments.zip part.expressions).zip expansion.parameters)
    (inner s.openCall expansion.items).2.closeCall

/-- Compiles a directive that is no conditional. -/
def compileCommand (calls files : Assembly → List Item → Flow × Assembly) (s : Assembly) (id : LineId)
    (part : Line.CommandPart) : Flow × Assembly :=
  match part.directive with
  | .org | .base => (.next, s.compileAddress id part.directive)
  | .bytes => (.next, s.compileData id part 1)
  | .words => (.next, s.compileData id part 2)
  | .longs => (.next, s.compileData id part 3)
  | .byteGroup => (.next, s.compileGroup id part 1)
  | .wordGroup => (.next, s.compileGroup id part 2)
  | .longGroup => (.next, s.compileGroup id part 3)
  | .hexBytes => (.next, s.compileHex id part)
  | .define => (.next, s.compileConstant id part)
  | .enumeration => (.next, s.compileEnumeration id part)
  | .repetition => (.next, compileRepetition calls s id part)
  | .includeSource => (.next, compileInclude files s part)
  | .includeBinary => (.next, s.compileBinary id part)
  | .message => (.next, s.compileMessage id part)
  | .failure => (.halt, s.compileFailure id part)
  | _ => (.next, s)

def compileLine (calls files : Assembly → List Item → Flow × Assembly) (s : Assembly) (id : LineId) :
    Flow × Assembly :=
  if (s.line id).isSkipped then
    (.next, s)
  else
    let s := s.enterLine id
    match (s.line id).kind with
    | .label | .unknown => (.next, s)
    | .instruction part => (.next, s.compileInstruction id part)
    | .variable part => (.next, s.compileVariable id part)
    | .command part => compileCommand calls files s id part
    | .call part => (.next, compileCall calls s id part)

mutual

def compileItem (calls files : Assembly → List Item → Flow × Assembly) : Item → Assembly → Flow × Assembly
  | .line id, s => compileLine calls files s id
  | .conditional id branches, s =>
    if (s.line id).isSkipped then
      (.next, s)
    else
      match (s.enterLine id).switchBranch id branches with
      | (none, s) => (.next, s)
      | (some index, s) => compileBranch calls files index branches s
termination_by structural item => item

/-- Compiles items in order, until one halts or the work is told to stop. -/
def compileItems (calls files : Assembly → List Item → Flow × Assembly) : List Item → Assembly → Flow × Assembly
  | [], s => (.next, s)
  | item :: items, s =>
    if s.stopped then
      (.halt, s)
    else
      match compileItem calls files item s with
      | (.halt, s) => (.halt, s)
      | (.next, s) => compileItems calls files items s
termination_by structural items => items

/-- Compiles the lines of the branch with a number. -/
def compileBranch (calls files : Assembly → List Item → Flow × Assembly) :
    Nat → List (LineId × List Item) → Assembly → Flow × Assembly
  | _, [], s => (.next, s)
  | 0, branch :: _, s => compileBody calls files branch s
  | index + 1, _ :: branches, s => compileBranch calls files index branches s
termination_by structural _ branches => branches

def compileBody (calls files : Assembly → List Item → Flow × Assembly) :
    LineId × List Item → Assembly → Flow × Assembly
  | (_, body), s => compileItems calls files body s
termination_by structural branch => branch

end

/-- Compiles lines, as deep as they may be nested. -/
def compileWithin : Budget → Assembly → List Item → Flow × Assembly
  | .spent, s, _ => (.next, s)
  | .left calls files, s, items => compileItems (compileWithin calls) (compileWithin files) items s

def compileUnit (s : Assembly) (u : SourceUnit) : Assembly :=
  (compileWithin .full (s.openUnit u.path) u.items).2

/-- Begins a pass, in which nothing has been done yet. -/
def beginPass (s : Assembly) (index : Nat) (last : Bool) : Assembly :=
  { s with pass := .compile index last, progress := {}, journal := [], cursor := .start, image := .empty }

def runPass (s : Assembly) (index : Nat) (last : Bool) : Assembly :=
  let s := s.beginPass index last
  (s.units.foldl compileUnit s).closeUnits

/-- Makes passes from the one with a number on, at most as many as given. The last one is made when
nothing has changed and everything is known, or when there are no more. -/
def runPassesFrom (total : Nat) : Nat → Assembly → Nat → Bool → Assembly
  | 0, s, _, _ => s
  | bound + 1, s, index, last =>
    let s := s.runPass index last
    if s.stopped then
      s
    else if last then
      match s.progress.unsettled with
      | some span => s.warn span s!"label values did not settle within {index + 1} passes"
      | none => s
    else
      let settled := !s.progress.changed && s.progress.pending == 0
      runPassesFrom total bound s (index + 1) (settled || total ≤ index + 2)

/-- Makes passes until the labels have settled. -/
def runPasses (s : Assembly) : Assembly :=
  let total := max s.settings.passes 1
  runPassesFrom total total s 0 (total == 1)

end CrossAssembler.Assembly
