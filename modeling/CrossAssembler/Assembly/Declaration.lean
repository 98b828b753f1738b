import CrossAssembler.Assembly.Blocks
import CrossAssembler.Assembly.Evaluation

/-!
# What lines declare

Labels, constants, enumerations, data groups, macros and included files are declared before any line
is resolved, so that every line sees them.

* `Assembly.declareGroup`, `Assembly.declareEnumeration`, `Assembly.declareMacro` — the declaring blocks.
* `Assembly.declare` — declares what lines declare.
-/

namespace CrossAssembler.Assembly

/-- Whether a name is a global or local label name. -/
def isPlainName (name : String) : Bool :=
  match NameScope.ofName? name with
  | some .global | some .local => true
  | _ => false

/-- Declares a variable, unless it is one already. -/
def declareVariable (s : Assembly) (id : LineId) (part : Line.VariablePart) : Assembly :=
  let line := s.line id
  let existing := (s.symbols.findLabel? part.name.text line.scope).filter fun label =>
    (s.symbols.label label).kind == .variable
  let (label, s) : Option LabelId × Assembly := match existing with
    | some label => (some label, s)
    | none =>
      match s.defineLabel id part.name line.scope .variable false with
      | (some label, s) => (some label, s.setDoc label line.comment)
      | (none, s) => (none, s)
  s.modifyLine id fun l =>
    match l.kind with
    | .variable part => { l with kind := .variable { part with label } }
    | _ => l

def declareConstant (s : Assembly) (id : LineId) (part : Line.CommandPart) : Assembly :=
  match part.arguments with
  | [] => s
  | name :: _ =>
    let line := s.line id
    match s.defineLabel id name line.scope .defined false with
    | (some label, s) => (s.setDoc label line.comment).setDirectiveState id (.defined label)
    | (none, s) => s

/-- Declares a row of an enumeration: a name, or a name and a length. -/
def declareEnumRow (s : Assembly) (id : LineId) (scope : ScopeId) (row : LineId) :
    Option EnumRow × Assembly :=
  let line := s.line row
  let s := s.mark row .finished
  let define (name : Token) (length : Option Token) : Option EnumRow × Assembly :=
    match s.defineLabel id name.withoutColon scope .defined false with
    | (some label, s) => (some ⟨label, length, none⟩, s.setDoc label line.comment)
    | (none, s) => (none, s)
  match line.origin.splitTopLevel ',' with
  | [name] => define name none
  | [name, length] => define name (some length)
  | _ => (none, s.fail id line.origin.span "expected 'name' or 'name, length' in .ENUM")

def declareEnumRows (s : Assembly) (id : LineId) (scope : ScopeId) :
    List LineId → List EnumRow × Assembly
  | [] => ([], s)
  | row :: rows =>
    let (entry, s) := s.declareEnumRow id scope row
    let (entries, s) := s.declareEnumRows id scope rows
    (entry.toList ++ entries, s)

def declareEnumeration (s : Assembly) (id : LineId) (part : Line.CommandPart) : Assembly :=
  let (rows, s) := s.declareEnumRows id (s.line id).scope (part.body.getD [])
  s.setDirectiveState id (.enumeration rows)

def splitRow (row : Token) : Option Token × Token :=
  match cutAtFirst? ':' .start row.text.toList with
  | some (before, after) =>
    (some (row.place 0 before).trimmed, (row.place (Text.byteLength before + 1) after).trimmed)
  | none => (none, row)

/-- The cells of a data group so far and where names stand in them. -/
structure GroupBuilder where
  group : DataGroup
  /-- The cells, the latest first. -/
  cells : List GroupCell

/-- Adds the cells of a row whose first cell has the given number. A cell that is a name is recorded by
its place in the row. -/
def addCells (s : Assembly) (id : LineId) (origin : Token) (b : GroupBuilder) :
    Nat → List Token → GroupBuilder × Assembly
  | _, [] => (b, s)
  | element, token :: tokens =>
    if token.isEmpty then
      (s.fail id origin.span "empty cell in data row").addCells id origin b (element + 1) tokens
    else
      let group := if isPlainName token.text then b.group.record token.text token element else b.group
      s.addCells id origin ⟨group, ⟨token, none⟩ :: b.cells⟩ (element + 1) tokens

/-- The label of a row of a data group stands below that of the group. -/
def rowLabel : Option String → String → String
  | some owner, name => owner ++ "." ++ name
  | none, name => name

/-- Declares a row of a data group. Its name is a label whose value is the number of its first cell. -/
def declareRow (s : Assembly) (id : LineId) (owner : Option String) (scope : ScopeId) (b : GroupBuilder)
    (row : LineId) : GroupBuilder × Assembly :=
  let line := s.line row
  let s := s.mark row .finished
  let (name, rest) := splitRow line.origin
  let element := b.cells.length
  let (b, s) : GroupBuilder × Assembly := match name with
    | none => (b, s)
    | some name =>
      let token := { name with text := rowLabel owner name.text }
      let s := match s.defineLabel id token scope .defined false with
        | (some label, s) =>
          (s.setDoc label line.comment).setLabelValue label (some (.ofWord (Int64.ofNat element)))
        | (none, s) => s
      ({ b with group := b.group.record name.text name element }, s)
  s.addCells id line.origin b element (rest.splitTopLevel ',')

def declareRows (s : Assembly) (id : LineId) (owner : Option String) (scope : ScopeId) (b : GroupBuilder) :
    List LineId → GroupBuilder × Assembly
  | [] => (b, s)
  | row :: rows =>
    let (b, s) := s.declareRow id owner scope b row
    s.declareRows id owner scope b rows

/-- Declares a data group. It is kept under the label in front of it. -/
def declareGroup (s : Assembly) (id : LineId) (part : Line.CommandPart) : Assembly :=
  let line := s.line id
  let owner := (line.label.filter fun label =>
    NameScope.ofName? label.text != some .nameless).map fun label => label.text
  let start : GroupBuilder := ⟨.empty (owner.getD "") line.origin.source, []⟩
  let (b, s) := s.declareRows id owner line.scope start (part.body.getD [])
  let s := if owner.isSome then { s with symbols := s.symbols.addGroup b.group } else s
  s.setDirectiveState id (.group b.cells.reverse)

/-- Whether the names of parameters can be used; the first that cannot is reported. -/
def checkParameters (s : Assembly) (id : LineId) (seen : List String) :
    List Token → Bool × Assembly
  | [] => (true, s)
  | token :: tokens =>
    if !isPlainName token.text || s.isReserved token.text then
      (false, s.fail id token.span s!"'{token.text}' is not a valid parameter name")
    else if seen.contains token.text then
      (false, s.fail id token.span s!"parameter '{token.text}' is listed twice")
    else
      s.checkParameters id (token.text :: seen) tokens

def declareMacro (s : Assembly) (id : LineId) (part : Line.CommandPart) : Assembly :=
  match part.arguments with
  | [] => s
  | name :: parameters =>
    if NameScope.ofName? name.text != some .global || s.isReserved name.text then
      s.fail id name.span s!"'{name.text}' is not a valid macro name"
    else
      match s.checkParameters id [] parameters with
      | (false, s) => s
      | (true, s) =>
        let definition : MacroDefinition :=
          { name := name.text, parameters := parameters.map fun p => p.text, body := part.body.getD [],
            source := (s.line id).origin.source, token := name }
        match s.symbols.defineMacro definition with
        | .ok symbols => { s with symbols }
        | .error e => s.symbolError id e name.span

/-- The file name in the first argument of a directive. -/
def fileArgument (s : Assembly) (id : LineId) (part : Line.CommandPart) : Option String × Assembly :=
  match part.arguments with
  | [] => (none, s)
  | token :: _ =>
    match s.parseExpression id token with
    | (none, s) => (none, s)
    | (some e, s) =>
      match e.stringLiteral? with
      | some name => (some name, s)
      | none => (none, s.fail id token.span "expected a quoted file name")

/-- The first of some paths at which a file stands, and its contents. -/
def firstFile (s : Assembly) : List Path → Option (Path × List UInt8) × Assembly
  | [] => (none, s)
  | path :: paths =>
    let s := { s with lookups := path :: s.lookups }
    match s.files path with
    | .file data => (some (path, data), s)
    | _ => s.firstFile paths

/-- Finds a file that a line names: next to the file of the line, then in the search folders. -/
def locate (s : Assembly) (id : LineId) (name : String) : Option (Path × List UInt8) × Assembly :=
  let origin := (s.line id).origin
  let beside := match Path.parent? (s.sources.name origin.source) with
    | some folder => folder.join name
    | none => name
  match s.firstFile (beside :: s.settings.searchFolders.map fun folder => folder.join name) with
  | (some found, s) => (some found, s)
  | (none, s) => (none, s.fail id origin.span s!"file not found: '{name}'")

def noteReading (s : Assembly) (path : Path) : Assembly :=
  match s.settings.stopAt with
  | some p => if p.same path then { s with stopped := true } else s
  | none => s

/-- Adds a source to what the outermost file includes. -/
def addInclude (s : Assembly) (source : SourceId) : Assembly :=
  match s.includeStack.getLast? with
  | none => s
  | some root => { s with units := go root s.units }
where
  /-- Adds the source to the first unit at a path. -/
  go (root : Path) : List SourceUnit → List SourceUnit
    | [] => []
    | u :: us => if u.path.same root then { u with includes := u.includes ++ [source] } :: us else u :: go root us

/-- Takes in the lines of an included text and declares them. -/
def includeText (declare : Assembly → List Item → Assembly) (s : Assembly) (id : LineId) (path : Path)
    (text : String) : Assembly :=
  let ((source, _, ids), s) := s.loadSource path text
  let (items, s) := ((s.addInclude source).openFile path).arrange ids
  (declare s items).closeFile.setDirectiveState id (.included path items)

/-- Takes in an included file and declares its lines. -/
def declareInclude (declare : Assembly → List Item → Assembly) (s : Assembly) (id : LineId)
    (part : Line.CommandPart) : Assembly :=
  match s.fileArgument id part with
  | (none, s) => s
  | (some name, s) =>
    match s.locate id name with
    | (none, s) => s
    | (some (path, data), s) =>
      let span := (s.line id).origin.span
      if s.includeStack.any fun p => p.same path then
        let chain := " -> ".intercalate (path :: s.includeStack).reverse
        s.fail id span s!"include cycle: {chain}"
      else if includeLimit ≤ s.includeStack.length then
        s.fail id span s!"includes are nested deeper than {includeLimit}"
      else
        let s := s.noteReading path
        match decodeText? data with
        | none => s.fail id span (FileError.notText path).message
        | some text => includeText declare s id path text

/-- Whether a scope is that of a macro call or inside one, looking at most at the given number of
scopes. -/
def inCallWithin (t : SymbolTable) : Nat → ScopeId → Bool
  | 0, _ => false
  | n + 1, scope =>
    (t.scope scope).kind == .call ||
      match (t.scope scope).parent with
      | some parent => inCallWithin t n parent
      | none => false

/-- Whether a line is in a macro call, at any depth. -/
def inCall (s : Assembly) (id : LineId) : Bool :=
  inCallWithin s.symbols (s.symbols.scopes.size + 1) (s.line id).scope

/-- Whether a directive may stand where it does; if not, that is reported. -/
def checkPlacement (s : Assembly) (id : LineId) (d : Directive) : Bool × Assembly :=
  if !d.spec.inMacros && s.inCall id then
    (false, s.fail id (s.line id).origin.span s!"{d.name} is not allowed inside a macro")
  else
    s.checkLabel id

def declareCommand (declare : Assembly → List Item → Assembly) (s : Assembly) (id : LineId)
    (part : Line.CommandPart) : Assembly :=
  let s := s.checkArguments id
  if (s.line id).isSkipped then
    s
  else
    match s.checkPlacement id part.directive with
    | (false, s) => s
    | (true, s) =>
      let s := s.defineLineLabel id
      match part.directive with
      | .define => s.declareConstant id part
      | .enumeration => s.declareEnumeration id part
      | .byteGroup | .wordGroup | .longGroup => s.declareGroup id part
      | .macroBlock => s.declareMacro id part
      | .includeSource => declareInclude declare s id part
      | _ => s

def declareLine (declare : Assembly → List Item → Assembly) (s : Assembly) (id : LineId) : Assembly :=
  let line := s.line id
  if line.isSkipped then
    s
  else
    match line.kind with
    | .instruction _ => s.defineLineLabel id
    | .command part => declareCommand declare s id part
    | .variable part => s.declareVariable id part
    | _ => s

/-- Declares what lines declare, as deep as they may be nested. -/
def declareWithin : Budget → Assembly → List Item → Assembly
  | .spent, s, _ => s
  | .left _ files, s, items =>
    items.foldl (fun s item => if s.stopped then s else declareLine (declareWithin files) s item.id) s

def declare (s : Assembly) (items : List Item) : Assembly := declareWithin .full s items

end CrossAssembler.Assembly
