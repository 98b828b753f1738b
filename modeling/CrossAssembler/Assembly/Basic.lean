import CrossAssembler.Cursor
import CrossAssembler.Expression.Evaluation
import CrossAssembler.Files.Entry
import CrossAssembler.Image
import CrossAssembler.Instruction.Catalogue
import CrossAssembler.Line.Arena
import CrossAssembler.Line.Classification
import CrossAssembler.Source.Diagnostic
import CrossAssembler.Symbol.Table

/-!
# An assembly

* `Assembly.openCall`, `Assembly.openFile` — go deeper into calls, repetitions and included files.
-/

namespace CrossAssembler

/-- What is asked for. -/
structure Settings where
  platform : Platform := default
  /-- How many passes may be made. -/
  passes : Nat := 2
  /-- Where included files are searched after the folder of the including one. -/
  searchFolders : List Path := []
  /-- A file at whose reading the work stops. -/
  stopAt : Option Path := none
  deriving Repr

/-- Which pass is running. -/
inductive Pass where
  /-- None yet. -/
  | analysis
  | compile (index : Nat) (last : Bool)
  deriving DecidableEq, Repr

namespace Pass

/-- The number of a pass, from 0, and -1 before the first. -/
def number : Pass → Int
  | analysis => -1
  | compile index _ => index

def isFinal : Pass → Bool
  | compile _ last => last
  | analysis => false

def mode (p : Pass) : Expression.Mode := if p.isFinal then .final else .tentative

end Pass

/-- What happened in a pass. -/
structure Progress where
  /-- Whether a label got another value. -/
  changed : Bool := false
  /-- How many values were not known. -/
  pending : Nat := 0
  /-- A label whose value changed in the final pass. -/
  unsettled : Option Span := none
  deriving Repr

/-- A reference in an expression, the label it was found to name, and the value of that label. -/
structure Lookup where
  reference : Reference
  /-- Where the reference starts in the expression. -/
  start : Nat
  label : LabelId
  value : Value
  deriving Repr

/-- An expression that was evaluated: where it stands, what its references gave, and the outcome. -/
structure Evaluation where
  expression : Expression
  token : Token
  scope : ScopeId
  org : Int64
  lookups : List Lookup
  outcome : Except Expression.Error Expression.Outcome

/-- What is done in a pass. -/
inductive Event where
  /-- A line was reached that has the given label in front of it. -/
  | entered (line : LineId) (label : Option LabelId)
  | evaluated (evaluation : Evaluation)
  /-- Bytes were written for a line. -/
  | emitted (line : LineId) (cells : List Cell)
  /-- The rows of an enumeration get their values. -/
  | numbered (line : LineId)

/-- A file that is assembled for itself. -/
structure SourceUnit where
  path : Path
  source : SourceId
  scope : ScopeId
  items : List Item
  /-- The sources it includes, at any depth. -/
  includes : List SourceId := []
  deriving Repr

/-- Sources, lines, symbols and output at some point of the work. -/
structure Assembly where
  settings : Settings
  files : Files
  sources : SourceStore := .empty
  units : List SourceUnit := []
  /-- How many units have been analysed. -/
  analyzed : Nat := 0
  lines : Arena := .empty
  symbols : SymbolTable := .empty
  diagnostics : Diagnostics := #[]
  cursor : Cursor := .start
  pass : Pass := .analysis
  image : Image := .empty
  messages : Array String := #[]
  /-- Whether the work was told to stop. -/
  stopped : Bool := false
  progress : Progress := {}
  /-- What the running pass has done, the latest first. -/
  journal : List Event := []
  /-- For each branch being analysed, the innermost first, the labels it made, the latest first. -/
  recorders : List (List LabelId) := []
  /-- The labels of rows of enumerations and data groups, each with the line of its block, the latest first. -/
  rowLabels : List (LabelId × LineId) := []
  /-- The files being included, the innermost first. -/
  includeStack : List Path := []
  /-- How many macro calls and repetitions are open. -/
  depth : Nat := 0
  /-- The depth and the files being included each time one of them changed, the latest first. -/
  nestings : List (Nat × List Path) := []
  /-- The paths that were looked up, the latest first. -/
  lookups : List Path := []

/-- What is known about the value of an expression. -/
inductive Answer (α : Type) where
  | known (value : α)
  /-- Not known in this pass. -/
  | pending
  /-- Never to be known in this pass; the reason has been reported. -/
  | failed
  deriving DecidableEq, Repr

def Answer.value? {α : Type} : Answer α → Option α
  | known value => some value
  | _ => none

/-- Whether the lines after the current one are still compiled. -/
inductive Flow where
  | next
  | halt
  deriving DecidableEq, Repr

def includeLimit : Nat := 32

/-- How deep macro calls and repetitions may be nested. -/
def expansionLimit : Nat := 64

/-- How much deeper lines may be nested: what is left for the lines of calls and repetitions, and for those
of included files. -/
inductive Budget where
  | spent
  | left (calls files : Budget)

namespace Budget

/-- What is left for lines in at most the given number of included files, none of them in a call more. -/
def forFiles (calls : Budget) : Nat → Budget
  | 0 => spent
  | bound + 1 => left calls (forFiles calls bound)

/-- What is left for lines in at most the given number of calls and repetitions. -/
def forCalls : Nat → Budget
  | 0 => spent
  | bound + 1 => forFiles (forCalls bound) (includeLimit + 1)

/-- What is left for the lines of a file that is assembled for itself. -/
def full : Budget := forCalls (expansionLimit + 1)

end Budget

namespace Assembly

/-- How deep lines can be nested in included files, macro calls and repetitions. -/
def nestingLimit : Nat := expansionLimit + includeLimit + 1

def instructions (s : Assembly) : InstructionSet := s.settings.platform.instructions

def line (s : Assembly) (id : LineId) : Line := s.lines.get id

def modifyLine (s : Assembly) (id : LineId) (f : Line → Line) : Assembly :=
  { s with lines := s.lines.modify id f }

def mark (s : Assembly) (id : LineId) (state : LineState) : Assembly :=
  s.modifyLine id fun l => l.mark state

def directiveState (s : Assembly) (id : LineId) : DirectiveState :=
  match (s.line id).command? with
  | some part => part.state
  | none => .none

def setDirectiveState (s : Assembly) (id : LineId) (state : DirectiveState) : Assembly :=
  s.modifyLine id fun l => l.modifyCommand fun part => { part with state }

/-- Notes how deep the current lines are nested. -/
def noteNesting (s : Assembly) : Assembly := { s with nestings := (s.depth, s.includeStack) :: s.nestings }

def openCall (s : Assembly) : Assembly := { s with depth := s.depth + 1 }.noteNesting

def closeCall (s : Assembly) : Assembly := { s with depth := s.depth - 1 }.noteNesting

def openFile (s : Assembly) (path : Path) : Assembly :=
  { s with includeStack := path :: s.includeStack }.noteNesting

def closeFile (s : Assembly) : Assembly := { s with includeStack := s.includeStack.tail }.noteNesting

/-- Begins with a file that is included by none. -/
def openUnit (s : Assembly) (path : Path) : Assembly := { s with includeStack := [path] }.noteNesting

def closeUnits (s : Assembly) : Assembly := { s with includeStack := [] }.noteNesting

def report (s : Assembly) (d : Diagnostic) : Assembly :=
  { s with diagnostics := s.diagnostics.push d }

def warn (s : Assembly) (span : Span) (message : String) : Assembly :=
  s.report { severity := .warning, message, primary := span }

/-- Adds an error about a line, which takes no further part. -/
def fail (s : Assembly) (id : LineId) (span : Span) (message : String) : Assembly :=
  (s.report { severity := .error, message, primary := span }).mark id .error

def note (s : Assembly) (event : Event) : Assembly := { s with journal := event :: s.journal }

def countPending (s : Assembly) : Assembly :=
  { s with progress := { s.progress with pending := s.progress.pending + 1 } }

/-- A failure that may pass as labels settle: an error in the final pass, a value not known before it. -/
def valueError (s : Assembly) (id : LineId) (span : Span) (message : String) : Assembly :=
  if s.pass.isFinal then s.fail id span message else s.countPending

/-- Adds the error that a symbol cannot be defined on a line. -/
def symbolError (s : Assembly) (id : LineId) (e : SymbolError) (span : Span) : Assembly :=
  let labels := match e.previous? with
    | some token => [(token.span, "first defined here")]
    | none => []
  (s.report { severity := .error, message := e.message, primary := span, labels }).mark id .error

/-- Takes in a source: its number, its scope, and the numbers of its lines. -/
def loadSource (s : Assembly) (name text : String) : (SourceId × ScopeId × List LineId) × Assembly :=
  let (source, sources) := s.sources.add name text
  let (scope, symbols) := s.symbols.addScope .file globalScope source
  let classified := classifySource s.instructions source ⟨name, text⟩
  let (ids, lines) := s.lines.pushAll (classified.map fun l => l.toLine scope)
  ((source, scope, ids), { s with sources, symbols, lines })

/-- Lets a source go with its symbols and diagnostics. -/
def releaseSource (s : Assembly) (source : SourceId) : Assembly :=
  { s with
    symbols := s.symbols.releaseFile source
    diagnostics := s.diagnostics.withoutSource source
    sources := s.sources.remove source }

/-- Lets sources go with all their lines. The number of the last one is the next to be used again. -/
def releaseSources (s : Assembly) (sources : List SourceId) : Assembly :=
  let owned := s.lines.ownedBy fun scope => sources.contains (s.symbols.scope scope).source
  sources.foldl releaseSource { s with lines := s.lines.release owned }

end Assembly

end CrossAssembler
