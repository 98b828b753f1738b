import CrossAssembler.Expression.Postfix
import CrossAssembler.Instruction.Form
import CrossAssembler.Line.Directive
import CrossAssembler.Symbol.Name

/-!
# Lines

* `Line.Kind` — what a line is: an instruction, a directive, an assignment, a macro call or a label.
* `Line.mark` — the moves between states; an error or an ignored line stays what it is.
-/

namespace CrossAssembler

abbrev LineId := Nat

/-- A line in its block structure. A conditional carries its branches, each a header line and the
items below it; every other line stands alone. -/
inductive Item where
  | line (id : LineId)
  | conditional (id : LineId) (branches : List (LineId × List Item))
  deriving Repr

def Item.id : Item → LineId
  | line id => id
  | conditional id _ => id

/-- How far a line has come. -/
inductive LineState where
  | unresolved
  | finished
  | error
  | ignored
  deriving DecidableEq, Repr

/-- A byte of output; `none` keeps a place for one that is not known yet. -/
abbrev Cell := Option UInt8

/-- A data cell of a group and its expression. -/
structure GroupCell where
  token : Token
  expression : Option Expression
  deriving Repr

/-- A row of an enumeration. -/
structure EnumRow where
  label : LabelId
  length : Option Token
  expression : Option Expression
  deriving Repr

/-- What became of the branches of a conditional: the one in use, and for each whether it has been
used yet and the labels it made then. -/
structure BranchState where
  active : Option Nat
  activated : List Bool
  bound : List (List LabelId)
  deriving Repr

/-- What a directive keeps from one phase to the next. -/
inductive DirectiveState where
  | none
  | defined (label : LabelId)
  | branches (state : BranchState)
  /-- The copies of a repeated block, once their number is known. -/
  | repeated (iterations : Option (List (List Item)))
  | included (path : String) (items : List Item)
  | binary (data : List UInt8)
  | enumeration (rows : List EnumRow)
  | group (cells : List GroupCell)
  deriving Repr

namespace Line

/-- An operand that has the shape of a form. -/
structure Matched where
  form : Form
  expressions : List (Token × Expression)
  deriving Repr

structure InstructionPart where
  mnemonic : Token
  /-- The mnemonic in lower case without its width mark. -/
  base : String
  forced : Option Nat
  operand : Token
  matched : Option Matched := none
  /-- The widest operand chosen so far. -/
  locked : Nat := 0
  deriving Repr

structure CommandPart where
  directive : Directive
  keyword : Token
  arguments : List Token
  expressions : List (Option Expression) := []
  /-- The lines of the block, for a block whose lines are kept as they are. -/
  body : Option (List LineId) := none
  /-- The line that ends the block. -/
  closer : Option LineId := none
  state : DirectiveState := .none
  deriving Repr

structure VariablePart where
  name : Token
  expression : Token
  parsed : Option Expression := none
  label : Option LabelId := none
  deriving Repr

/-- The copy of a macro's lines for one call. -/
structure Expansion where
  parameters : List LabelId
  items : List Item
  deriving Repr

structure CallPart where
  name : Token
  arguments : List Token
  expressions : List (Option Expression) := []
  expansion : Option Expansion := none
  deriving Repr

/-- What a line is. -/
inductive Kind where
  | label
  | instruction (part : InstructionPart)
  | command (part : CommandPart)
  | variable (part : VariablePart)
  | call (part : CallPart)
  /-- Not known before all macros are. -/
  | unknown
  deriving Repr

end Line

/-- What is known about a line. -/
structure Line where
  /-- The line without its comment. -/
  origin : Token
  scope : ScopeId
  label : Option Token := none
  labelId : Option LabelId := none
  comment : Option String := none
  kind : Line.Kind
  state : LineState := .unresolved
  /-- The address the line was last compiled at. -/
  org : Int64 := 0
  /-- The output offset the line was last compiled at. -/
  base : Int64 := 0
  /-- The bytes the line last produced. -/
  bytes : List Cell := []
  deriving Repr

namespace Line

def vacant : Line :=
  { origin := ⟨noSource, 0, 0, 0, ""⟩, scope := globalScope, kind := .label, state := .ignored }

/-- Moves a line to a state. A line leaves `unresolved` once; after that only a finished line can still
fail. -/
def mark (l : Line) (state : LineState) : Line :=
  match l.state, state with
  | .unresolved, _ => { l with state }
  | .finished, .error => { l with state }
  | _, _ => l

def isSkipped (l : Line) : Bool := l.state == .error || l.state == .ignored

def command? (l : Line) : Option CommandPart :=
  match l.kind with
  | .command part => some part
  | _ => none

def directive? (l : Line) : Option Directive := l.command?.map fun part => part.directive

/-- Whether a line begins a block whose rows have labels. -/
def hasRows (l : Line) : Bool := l.directive?.any fun d => d == .enumeration || d.opens .endGroup

def modifyCommand (l : Line) (f : CommandPart → CommandPart) : Line :=
  match l.kind with
  | .command part => { l with kind := .command (f part) }
  | _ => l

/-- What a copy of a line is before anything is known about it. -/
def Kind.fresh : Kind → Kind
  | .instruction part => .instruction { part with matched := none, locked := 0 }
  | .command part => .command { directive := part.directive, keyword := part.keyword, arguments := part.arguments }
  | .variable part => .variable { part with parsed := none, label := none }
  | .call part => .call { name := part.name, arguments := part.arguments }
  | .label => .label
  | .unknown => .unknown

def copyTo (l : Line) (scope : ScopeId) : Line :=
  { origin := l.origin, scope, label := l.label, comment := l.comment, kind := l.kind.fresh }

end Line

namespace Line.CommandPart

def expression? (part : CommandPart) (i : Nat) : Option Expression := (part.expressions[i]?).join

end Line.CommandPart

end CrossAssembler
