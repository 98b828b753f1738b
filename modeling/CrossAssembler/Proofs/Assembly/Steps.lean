import CrossAssembler.Assembly.Build
import Mathlib

/-!
# What an assembly can do

Everything that is done to an assembly is a sequence of small steps, and each kind of step is listed
here once with what it takes for granted. What holds along every run is then shown step by step.
-/

namespace CrossAssembler

/-- An item whose lines all have a property: its own, the headers of its branches, and those below
them, where the items of a branch are different lines. -/
inductive Item.Proper (P : LineId → Prop) : Item → Prop
  | line {id : LineId} : P id → Item.Proper P (.line id)
  | conditional {id : LineId} {branches : List (LineId × List Item)} : P id →
      (∀ b ∈ branches, P b.1) → (∀ b ∈ branches, (b.2.map Item.id).Nodup) →
      (∀ b ∈ branches, ∀ item ∈ b.2, Item.Proper P item) → Item.Proper P (.conditional id branches)

mutual

/-- The lines of an item: its own, the headers of its other branches, and those below them. -/
def Item.lines : Item → List LineId
  | .line id => [id]
  | .conditional id branches => id :: Item.branchLines id branches
termination_by structural item => item

/-- The lines of items, in order. -/
def Item.allLines : List Item → List LineId
  | [] => []
  | item :: items => item.lines ++ Item.allLines items
termination_by structural items => items

/-- The lines of the branches of a conditional, but for its own. -/
def Item.branchLines (id : LineId) : List (LineId × List Item) → List LineId
  | [] => []
  | branch :: branches => Item.bodyLines id branch ++ Item.branchLines id branches
termination_by structural branches => branches

/-- The lines of a branch of a conditional, but for its own. -/
def Item.bodyLines (id : LineId) : LineId × List Item → List LineId
  | (header, body) => (if header = id then [] else [header]) ++ Item.allLines body
termination_by structural branch => branch

end

/-- The value that an evaluation has come to, if any. -/
def Evaluation.value? (e : Evaluation) : Option Value :=
  match e.outcome with
  | .ok (.resolved value) => some value
  | _ => none

/-- The integer that an evaluation has come to, if any. -/
def Evaluation.word? (e : Evaluation) : Option Int64 := e.value?.bind fun value => value.toWord.toOption

/-- Whether a value makes one cell of data: a number, or a string of one character. -/
def Value.IsSingle : Value → Prop
  | .number _ => True
  | .string text => text.length = 1

def Evaluation.IsSingle (e : Evaluation) : Prop := ∃ value, e.value? = some value ∧ value.IsSingle

/-- Whether the text of a cell has been read. -/
def GroupCell.IsRead (c : GroupCell) : Prop := ∃ e, c.expression = some e ∧ Expression.parse c.token.text = .ok e

namespace Line

/-- The scope of a line, where it is written, and the label in front of a directive. -/
def place (l : Line) : ScopeId × Token × Option (Option Token) := (l.scope, l.origin, l.directive?.map fun _ => l.label)

/-- The name that a data group and its rows go by: the label in front of it, unless that is nameless. -/
def groupName? (l : Line) : Option String :=
  (l.label.filter fun label => NameScope.ofName? label.text != some .nameless).map fun label => label.text

/-- Whether a line is neither an assignment nor the head of a conditional. -/
def isPlain (l : Line) : Bool :=
  match l.kind with
  | .variable _ => false
  | .command part => !part.directive.isConditional
  | _ => true

/-- Whether every argument of a directive that has been read has an expression, where output depends on
it. -/
def CommandPart.Complete (part : CommandPart) : Prop :=
  match part.directive with
  | .bytes | .words | .longs => none ∉ part.expressions
  | .includeBinary => ∀ data, part.state = .binary data →
      ∀ i, 1 ≤ i → i < part.arguments.length → part.expression? i ≠ none
  | _ => True

/-- Whether every argument that has been read has an expression, on lines that output depends on. -/
def Complete (l : Line) : Prop :=
  match l.kind with
  | .call part => none ∉ part.expressions
  | .command part => part.Complete
  | _ => True

/-- Whether a directive can have come to a state: only a conditional has branches, and only an include
has the lines of a file. -/
def Suits (d : Directive) : DirectiveState → Prop
  | .branches _ => d.isConditional = true
  | .included .. => d = .includeSource
  | _ => True

/-- Whether the state of a directive suits it. -/
def Consistent (l : Line) : Prop := ∀ part, l.kind = .command part → Suits part.directive part.state

/-- What a line has come to hold: bytes that are written as digits, or the rows of a data group. -/
inductive Content where
  | bytes (data : List UInt8)
  | rows (rows : List LineId)

/-- Whether a directive has read its argument, and which bytes it stands for, or has been declared as a data group. -/
def CommandPart.Holds (part : CommandPart) : Content → Prop
  | .bytes data => part.directive = .hexBytes ∧ part.state = .binary data ∧
      ∃ argument rest, part.arguments = argument :: rest ∧ Assembly.readHex argument.text.toList = .ok data
  | .rows rows => part.directive.opens .endGroup = true ∧ (∃ cells, part.state = .group cells) ∧ part.body.getD [] = rows

def Holds (l : Line) (content : Content) : Prop := ∃ part, l.kind = .command part ∧ part.Holds content

/-- Whether a line begins a data group or stands for bytes written as digits. -/
def isData (l : Line) : Bool := l.directive?.any fun d => d == .hexBytes || d.opens .endGroup

/-- Other lines hold nothing that could be lost. -/
theorem not_holds {l : Line} {P : CommandPart → Content → Prop} (h : l.isData = false) (part : CommandPart)
    (content : Content) (hkind : l.kind = .command part) (hholds : part.Holds content) : P part content := by
  rw [isData, directive?, command?, hkind] at h
  cases content with
  | bytes => simp [hholds.1] at h
  | rows => simp [hholds.1] at h

theorem not_holds_of_state {l : Line} {P : CommandPart → Content → Prop} {part' : CommandPart}
    (hkind' : l.kind = .command part') (hbytes : ∀ data, part'.state ≠ .binary data)
    (hgroup : ∀ cells, part'.state ≠ .group cells) (part : CommandPart) (content : Content)
    (hkind : l.kind = .command part) (hholds : part.Holds content) : P part content := by
  rw [hkind'] at hkind
  cases hkind
  cases content with
  | bytes data => exact absurd hholds.2.1 (hbytes data)
  | rows =>
    obtain ⟨cells, hcells⟩ := hholds.2.1
    exact absurd hcells (hgroup cells)

/-- The lines of the block that a line begins. -/
def rows (l : Line) : List LineId :=
  match l.kind with
  | .command part => part.body.getD []
  | _ => []

/-- The rows and the cells of a line that has been declared as a data group. -/
def table? (l : Line) : Option (List LineId × List Token) :=
  match l.kind with
  | .command part =>
    match part.state with
    | .group cells => some (part.body.getD [], cells.map fun c => c.token)
    | _ => none
  | _ => none

/-- Whether all cells of a data group have been read, and the start and all lengths of an enumeration. -/
structure CommandPart.IsRead (part : CommandPart) : Prop where
  cells : part.directive ∈ [Directive.byteGroup, .wordGroup, .longGroup] → ∀ cells, part.state = .group cells →
    ∀ c ∈ cells, c.IsRead
  lengths : part.directive = .enumeration → ∀ rows, part.state = .enumeration rows →
    (part.arguments ≠ [] → part.expression? 0 ≠ none) ∧ ∀ r ∈ rows, r.length ≠ none → r.expression ≠ none

/-- Whether the rows of a block have been read. -/
def Read (l : Line) : Prop := ∀ part, l.kind = .command part → part.IsRead

/-- Where the lines below a line come from. -/
inductive Part where
  | call
  | file

/-- The lines that are analysed together with a line, and where they come from. -/
def inner (l : Line) : List (Part × List Item) :=
  match l.kind with
  | .call part => (part.expansion.map fun e => (.call, e.items)).toList
  | .command part =>
    match part.directive, part.state with
    | .includeSource, .included _ items => [(.file, items)]
    | _, _ => []
  | _ => []

end Line

/-- What a budget leaves for the lines below a line. -/
def Budget.share : Budget → Line.Part → Budget
  | spent, _ => spent
  | left calls _, .call => calls
  | left _ files, .file => files

/-- What may be done: the lines that may be changed, those among them that may be declared anew and put
below others, and those that may be reached in a pass and written. -/
structure Permit where
  change : LineId → Prop
  declare : LineId → Prop
  attach : LineId → Prop
  write : LineId → Prop
  sub : ∀ id, declare id → change id
  sub_attach : ∀ id, attach id → change id

/-- Everything is allowed. -/
def Permit.all : Permit :=
  ⟨fun _ => True, fun _ => True, fun _ => True, fun _ => True, fun _ h => h, fun _ h => h⟩

/-- All lines may be changed and put below others, reached and written, and none declared. -/
def Permit.quiet : Permit :=
  ⟨fun _ => True, fun _ => False, fun _ => True, fun _ => True, nofun, fun _ h => h⟩

/-- Some lines may be changed, and nothing else is allowed. -/
def Permit.tending (own : LineId → Prop) : Permit :=
  ⟨own, fun _ => False, fun _ => False, fun _ => False, nofun, nofun⟩

/-- One line may be changed, reached and written. -/
def Permit.serving (id : LineId) : Permit :=
  ⟨(· = id), fun _ => False, fun _ => False, (· = id), nofun, nofun⟩

/-- No line may be changed, and none reached or written. -/
def Permit.still : Permit := ⟨fun _ => False, fun _ => False, fun _ => False, fun _ => False, nofun, nofun⟩

/-- Whether lines may be declared and put below others from a number on. -/
def Permit.Allows (may : Permit) (n : Nat) : Prop := ∀ id, n ≤ id → may.declare id ∧ may.attach id

/-- Only own lines may be touched, and only those from a number on put below others. -/
def Permit.inside (own : LineId → Prop) (n : Nat) : Permit :=
  ⟨own, own, fun id => own id ∧ n ≤ id, fun _ => False, fun _ h => h, fun _ h => h.1⟩

/-- Only lines from a number on may be touched, and only those from another one on put below others. -/
def Permit.between (n m : Nat) : Permit := .inside (fun id => n ≤ id) m

/-- Only lines from a number on may be touched. -/
def Permit.from (n : Nat) : Permit := .between n n

/-- Only lines from a number on may be touched, and none declared or put below others. -/
def Permit.undeclared (n : Nat) : Permit :=
  ⟨fun id => n ≤ id, fun _ => False, fun _ => False, fun _ => False, nofun, nofun⟩

/-- Whether a place is recorded for a name. -/
def DataGroup.Records (g : DataGroup) (name : String) (token : Token) (element : Nat) : Prop :=
  ∃ places, (name, places) ∈ g.index ∧ (token, element) ∈ places

/-- The lines in lists of items, in order. -/
def lineIds (lists : List (List Item)) : List LineId := Item.allLines lists.flatten

namespace Assembly

/-- Whether an error has been reported. -/
def Failed (s : Assembly) : Prop := s.diagnostics.hasErrors = true

/-- Whether no line is an assignment or the head of a conditional. -/
def Plain (s : Assembly) : Prop := ∀ l ∈ s.lines.lines, l.isPlain = true

/-- Whether there is an error, or a line that takes no further part. -/
def Faulty (s : Assembly) : Prop :=
  s.Failed ∨ ∃ id, id < s.lines.size ∧ (s.line id).isSkipped = true

/-- Whether no expression that was evaluated in this pass looks into a scope. -/
def Room (s : Assembly) (scope : ScopeId) : Prop :=
  s.Plain → ∀ e, .evaluated e ∈ s.journal → e.scope < scope

/-- The lines in the lists of an owner: the files, or a line. -/
def held (s : Assembly) : Option LineId → List LineId
  | none => lineIds (s.units.map fun u => u.items)
  | some id => lineIds (linesBelow (s.line id))

/-- Whether a line stands in no list. -/
def Loose (s : Assembly) (id : LineId) : Prop := ∀ owner, id ∉ s.held owner

/-- Whether lists can be put below a line: their lines are different, come after it and stand in no list. -/
def Grows (s : Assembly) (id : LineId) (lists : List (List Item)) : Prop :=
  (lineIds lists).Nodup ∧ ∀ k ∈ lineIds lists, id < k ∧ s.Loose k

/-- Whether a label has been made, and not for a row. -/
def Free (s : Assembly) (label : LabelId) : Prop :=
  label < s.symbols.labels.size ∧ ∀ id, (label, id) ∉ s.rowLabels

/-- Whether a label has been made for a row of a data group and has no value yet. -/
def Awaits (s : Assembly) (label : LabelId) : Prop :=
  (s.symbols.label label).value = none ∧
    ∃ id d, (label, id) ∈ s.rowLabels ∧ (s.line id).directive? = some d ∧ d.opens .endGroup = true

/-- The cells of a row of a data group. -/
def rowCells (row : Token) : List Token := (splitRow row).2.splitTopLevel ','

/-- What is written on lines. -/
def texts (s : Assembly) (ids : List LineId) : List Token := ids.map fun id => (s.line id).origin

/-- Whether a data group has the cells of its rows, and each name of a row, after that of the group if it has one, is
the name of a label whose value is the number of cells before the row. -/
structure Tabulated (s : Assembly) (id : LineId) (rows : List LineId) (tokens : List Token) : Prop where
  group : ∃ d, (s.line id).directive? = some d ∧ d.opens .endGroup = true
  made : ∀ row ∈ rows, row < s.lines.size
  cells : tokens = (s.texts rows).flatMap rowCells
  labels : ∀ before row after name, s.texts rows = before ++ row :: after → (splitRow row).1 = some name →
    ∃ label, (label, id) ∈ s.rowLabels ∧
      (s.symbols.label label).token = { name with text := rowLabel (s.line id).groupName? name.text } ∧
      (s.symbols.label label).value = some (.ofWord (Int64.ofNat (before.flatMap rowCells).length))

/-- Whether a name is the cell with a number, or that of the row that begins there. -/
def StandsAt (rows : List Token) (token : Token) (element : Nat) : Prop :=
  (rows.flatMap rowCells)[element]? = some token ∧ isPlainName token.text = true ∨
    ∃ before row after, rows = before ++ row :: after ∧ (splitRow row).1 = some token ∧
      element = (before.flatMap rowCells).length

/-- Whether an index says where names stand in the data group that it is named after. -/
def Describes (s : Assembly) (g : DataGroup) : Prop :=
  ∃ id rows, (s.line id).Holds (.rows rows) ∧ (∀ row ∈ rows, row < s.lines.size) ∧
    (s.line id).groupName? = some g.owner ∧ (s.line id).origin.source = g.source ∧
    ∀ name token element, g.Records name token element ↔ token.text = name ∧ StandsAt (s.texts rows) token element

/-- Whether the text of a cell has been read and evaluated in a scope in the running pass. -/
def Weighs (s : Assembly) (scope : ScopeId) (token : Token) (e : Evaluation) : Prop :=
  .evaluated e ∈ s.journal ∧ e.token = token ∧ e.scope = scope ∧ Expression.parse token.text = .ok e.expression

/-- Whether bytes are those of cells: if each makes one cell of data, their words stand one after another, the
lowest byte first. -/
def LaidOut (s : Assembly) (scope : ScopeId) (width : Nat) (tokens : List Token) (out : List Cell) : Prop :=
  ∃ evaluations, List.Forall₂ (s.Weighs scope) tokens evaluations ∧
    ((∀ e ∈ evaluations, e.IsSingle) → ∃ words : List Int64, evaluations.map Evaluation.word? = words.map some ∧
      out = words.flatMap fun n => (littleEndian width n.toInt).map some)

/-- Whether what a line writes are its cells, if it is a data group. -/
def Lays (s : Assembly) (id : LineId) (out : List Cell) : Prop :=
  id < s.lines.size ∧ ∀ d width, (s.line id).directive? = some d → d.opens .endGroup = true → d.cellWidth? = some width →
    s.Failed ∨ ∃ table, (s.line id).table? = some table ∧ s.LaidOut (s.line id).scope width table.2 out

/-- Whether rows have labels of their own, and a constant has one that is of no row. -/
structure Claims (s : Assembly) (id : LineId) (state : DirectiveState) : Prop where
  label : ∀ label, state = .defined label → s.Free label
  rows : ∀ rows, state = .enumeration rows →
    (rows.map fun r => r.label).Nodup ∧ ∀ r ∈ rows, (r.label, id) ∈ s.rowLabels

/-- Whether a line gives values only to its rows and to labels that are of no rows. -/
def Owns (s : Assembly) (id : LineId) (l : Line) : Prop :=
  (∀ label ∈ l.labelId, s.Free label) ∧ match l.kind with
    | .variable part => ∀ label ∈ part.label, s.Free label
    | .call part => ∀ e ∈ part.expansion, ∀ label ∈ e.parameters, s.Free label
    | .command part => s.Claims id part.state
    | _ => True

/-- What a line keeps when what it is becomes better known. -/
structure Refines (own : LineId → Prop) (s : Assembly) (id : LineId) (l l' : Line) : Prop where
  place : l'.place = l.place
  state : l'.state = l.state
  labelId : l'.labelId = l.labelId
  org : l'.org = l.org
  base : l'.base = l.base
  bytes : l'.bytes = l.bytes
  plain : l'.isPlain = l.isPlain
  directive : l'.directive? = l.directive?
  complete : l.Complete → l'.Complete ∨ s.Failed
  consistent : l.Consistent → l'.Consistent
  data : ∀ content, l.Holds content → l'.Holds content
  owned : s.Owns id l → s.Owns id l'
  rows : ∀ row ∈ l'.rows, row ∈ l.rows ∨ row < s.lines.size
  below : ∀ items ∈ linesBelow l', items ∈ linesBelow l ∨
    ∀ item ∈ items, item.Proper fun id => own id ∧ id < s.lines.size

theorem Refines.scope {own : LineId → Prop} {s : Assembly} {id : LineId} {l l' : Line} (h : Refines own s id l l') :
    l'.scope = l.scope := congrArg Prod.fst h.place

/-- What a line keeps that is not declared anew. -/
structure Keeps (s : Assembly) (l l' : Line) : Prop where
  read : l.Read → l'.Read ∨ s.Failed
  inner : ∀ items ∈ l.inner, items ∈ l'.inner
  table : ∀ table, l'.table? = some table → l.table? = some table

/-- What a line must be to be added. -/
structure Fresh (s : Assembly) (l : Line) : Prop where
  scope : l.scope < s.symbols.scopes.size
  room : s.Room l.scope
  owned : ∀ id, s.Owns id l
  state : l.state = .unresolved
  complete : l.Complete
  consistent : l.Consistent
  read : l.Read
  table : l.table? = none
  rows : l.rows = []
  below : linesBelow l = []

/-- A step of the analysis of lines that does only what it may do. -/
inductive Change (may : Permit) : Assembly → Assembly → Prop
  /-- Anything but lines, symbols, diagnostics, output and what the pass has come to. -/
  | around {s s' : Assembly} (lines : s'.lines = s.lines) (symbols : s'.symbols = s.symbols)
      (diagnostics : s'.diagnostics = s.diagnostics) (pass : s'.pass = s.pass)
      (unsettled : s'.progress.unsettled = s.progress.unsettled) (journal : s'.journal = s.journal)
      (units : s'.units.map (fun u => u.items) = s.units.map fun u => u.items)
      (cursor : s'.cursor = s.cursor) (image : s'.image = s.image) (rowLabels : s'.rowLabels = s.rowLabels)
      (stopped : s.stopped = true → s'.stopped = true) : Change may s s'
  | report {s : Assembly} (d : Diagnostic) : Change may s (s.report d)
  | mark {s : Assembly} (id : LineId) (state : LineState)
      (h : state = .error ∨ state = .ignored → s.Faulty) : Change may s (s.mark id state)
  | modify {s : Assembly} (id : LineId) (f : Line → Line) (hown : may.change id)
      (h : Refines may.attach s id (s.line id) (f (s.line id)))
      (grows : linesBelow (f (s.line id)) = linesBelow (s.line id) ∨ s.Grows id (linesBelow (f (s.line id))))
      (keeps : may.declare id ∧ (∀ table, (f (s.line id)).table? = some table →
        s.Tabulated id table.1 table.2 ∨ s.Failed) ∨ Keeps s (s.line id) (f (s.line id))) :
      Change may s (s.modifyLine id f)
  /-- A line gets the label in front of it. -/
  | name {s : Assembly} (id : LineId) (label : LabelId) (hown : may.change id) (h : (s.line id).labelId = none)
      (free : s.Free label) :
      Change may s (s.modifyLine id fun l => { l with labelId := some label })
  | define {s : Assembly} {token : Token} {scope : ScopeId} {kind : LabelKind} {allow : Bool}
      {label : LabelId} {symbols : SymbolTable} (id : LineId)
      (h : s.symbols.createLabel token scope kind allow = .ok (label, symbols)) (room : s.Room scope)
      (plain : kind = .variable → ¬ s.Plain) :
      Change may s { s with
          symbols
          recorders := s.recorders.map fun labels => label :: labels
          rowLabels :=
            if kind = .defined ∧ (s.line id).hasRows = true then (label, id) :: s.rowLabels
            else s.rowLabels }
  | assign {s : Assembly} (label : LabelId) (value : Option Value)
      (h : value = none → s.pass.isFinal = true → s.Failed) (free : s.Free label ∨ s.Awaits label) :
      Change may s (s.setLabelValue label value)
  | document {s : Assembly} (label : LabelId) (doc : Option String) : Change may s (s.setDoc label doc)
  /-- Macros, data groups and references. -/
  | register {s : Assembly} (symbols : SymbolTable) (labels : symbols.labels = s.symbols.labels)
      (scopes : symbols.scopes = s.symbols.scopes)
      (freeLabels : symbols.freeLabels = s.symbols.freeLabels)
      (freeScopes : symbols.freeScopes = s.symbols.freeScopes)
      (groups : ∀ g ∈ symbols.groups, g ∈ s.symbols.groups ∨ s.Describes g ∨ s.Failed) :
      Change may s { s with symbols }
  | addScope {s : Assembly} (kind : ScopeKind) (parent : ScopeId) (source : SourceId)
      (h : parent < s.symbols.scopes.size) :
      Change may s { s with symbols := (s.symbols.addScope kind parent source).2 }
  | push {s : Assembly} (l : Line) (h : s.Fresh l) :
      Change may s { s with lines := (s.lines.push l).2 }

/-- A step of a pass that changes lines only as it may. -/
inductive Step (may : Permit) : Assembly → Assembly → Prop
  | change {s s' : Assembly} (h : Change may s s') : Step may s s'
  /-- A label of a branch that is left. -/
  | hide {s : Assembly} (label : LabelId) (plain : ¬ s.Plain) :
      Step may s { s with symbols := s.symbols.unbind label }
  /-- A label of a branch that comes back. -/
  | unhide {s : Assembly} {label : LabelId} {symbols : SymbolTable}
      (h : s.symbols.rebind label = .ok symbols) (plain : ¬ s.Plain) : Step may s { s with symbols }
  | begin {s : Assembly} (id : LineId) (hown : may.write id) (plain : ¬ s.Plain) : Step may s (s.beginLine id)
  | enter {s : Assembly} (id : LineId) (hown : may.write id) : Step may s (s.enterLine id)
  /-- An enumeration begins to give its rows their values. -/
  | count {s : Assembly} (id : LineId) (hown : may.write id) : Step may s (s.note (.numbered id))
  /-- A row of an enumeration gets its value. -/
  | number {s : Assembly} (id : LineId) (hown : may.write id) (label : LabelId) (value : Value)
      (h : (label, id) ∈ s.rowLabels) (henum : (s.line id).directive? = some .enumeration) :
      Step may s (s.setLabelValue label (some value))
  /-- A line says where output goes on. -/
  | move {s : Assembly} (id : LineId) (hown : may.write id) (cursor : Cursor) : Step may s { s with cursor }
  | evaluate {s : Assembly} (id : LineId) (e : Expression) (token : Token)
      (h : id < s.lines.size) : Step may s (s.evaluate id e token).2
  | emit {s : Assembly} (id : LineId) (hown : may.write id) (cells : List Cell)
      (h : none ∈ cells → s.pass.isFinal = true → s.Failed) (lays : s.Lays id cells) : Step may s (s.emit id cells)

theorem Change.nest {may : Permit} (s : Assembly) (includeStack : List Path) (depth : Nat)
    (nestings : List (Nat × List Path)) : Change may s { s with includeStack, depth, nestings } :=
  .around rfl rfl rfl rfl rfl rfl rfl rfl rfl rfl fun h => h

/-- Changes one after another. -/
abbrev Changes (may : Permit) : Assembly → Assembly → Prop :=
  Relation.ReflTransGen (Change may)

/-- Steps one after another. -/
abbrev Steps (may : Permit) : Assembly → Assembly → Prop := Relation.ReflTransGen (Step may)

end Assembly

end CrossAssembler
