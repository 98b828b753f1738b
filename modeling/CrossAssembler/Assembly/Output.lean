import CrossAssembler.Assembly.Message
import CrossAssembler.Assembly.Parsing

/-!
# The output of lines

* `Assembly.compileData`, `Assembly.compileGroup`, `Assembly.compileBinary` — write data.
-/

namespace CrossAssembler.Assembly

def beginLine (s : Assembly) (id : LineId) : Assembly :=
  let org := s.cursor.org
  let base := s.cursor.base
  s.modifyLine id fun l => { l with org, base, bytes := [] }

/-- Notes where a line starts, also in the label in front of it. -/
def enterLine (s : Assembly) (id : LineId) : Assembly :=
  let s := s.beginLine id
  let s := s.note (.entered id (s.line id).labelId)
  match (s.line id).labelId with
  | some label => s.setLabelValue label (some (.ofWord s.cursor.org))
  | none => s

/-- Writes the bytes of a line and moves on past them. -/
def emit (s : Assembly) (id : LineId) (cells : List Cell) : Assembly :=
  let s := match s.image.write s.cursor.base cells with
    | .ok image => { s with image }
    | .error e => s.fail id (s.line id).origin.span e.message
  let s := s.note (.emitted id cells)
  { s with cursor := s.cursor.advance cells.length }.modifyLine id fun l => { l with bytes := cells }

/-- Places for an instruction whose operand is not known. -/
def reserved (e : Encoding) : List Cell := e.opcode.map some ++ List.replicate e.width none

/-- The values of an instruction's operands, as far as they are known. -/
def operandWords (s : Assembly) (id : LineId) : List (Token × Expression) → List (Option Int64) × Assembly
  | [] => ([], s)
  | (token, e) :: rest =>
    let (answer, s) := s.evaluateWord id e token
    let (words, s) := s.operandWords id rest
    (answer.value? :: words, s)

def allKnown : List (Option Int64) → Option (List Int64)
  | [] => some []
  | some n :: rest => (allKnown rest).map fun ns => n :: ns
  | none :: _ => none

/-- Notes the width chosen for an instruction; later passes choose none below it. -/
def lockWidth (s : Assembly) (id : LineId) (width : Nat) : Assembly :=
  s.modifyLine id fun l =>
    match l.kind with
    | .instruction part => { l with kind := .instruction { part with locked := max part.locked width } }
    | _ => l

/-- Chooses the encoding of an instruction and writes its bytes. While the operands are not known, places
for the widest encoding are kept. -/
def compileInstruction (s : Assembly) (id : LineId) (part : Line.InstructionPart) : Assembly :=
  match part.matched with
  | none => s
  | some m =>
    let (words, s) := s.operandWords id m.expressions
    let known := allKnown words
    match m.form.select (known.bind List.head?) part.forced part.locked with
    | .error (.widthUnavailable width) =>
      s.fail id part.mnemonic.span (Instruction.Error.widthUnavailable width).message
    | .error e => (s.valueError id part.operand.span e.message).emit id (reserved m.form.widest)
    | .ok encoding =>
      let s := s.lockWidth id encoding.width
      match known with
      | none => s.emit id (reserved encoding)
      | some values =>
        match m.form.encode encoding values (s.line id).org with
        | .ok bytes => s.emit id (bytes.map some)
        | .error e => (s.valueError id part.operand.span e.message).emit id (reserved encoding)

def compileVariable (s : Assembly) (id : LineId) (part : Line.VariablePart) : Assembly :=
  match part.label, part.parsed with
  | some label, some e =>
    match s.evaluate id e part.expression with
    | (.known value, s) => s.setLabelValue label (some value)
    | (_, s) => s
  | _, _ => s

def compileConstant (s : Assembly) (id : LineId) (part : Line.CommandPart) : Assembly :=
  match part.state, part.expression? 1, part.arguments[1]? with
  | .defined label, some e, some token =>
    match s.evaluate id e token with
    | (.known value, s) => s.setLabelValue label (some value)
    | (_, s) => s
  | _, _, _ => s

def compileAddress (s : Assembly) (id : LineId) (d : Directive) : Assembly :=
  match s.argumentWord id 0 with
  | (.known n, s) =>
    if d = .base then
      if n < 0 then
        s.fail id (s.line id).origin.span (Image.Error.negative n).message
      else
        { s with cursor := s.cursor.setBase n }
    else
      { s with cursor := s.cursor.setOrg n }
  | (_, s) => s

/-- A cell of data, the lowest byte first. A value that does not fit is cut, with a warning in the final
pass. -/
def cell (s : Assembly) (token : Token) (value : Int64) (width : Nat) : List Cell × Assembly :=
  let s :=
    if !fits value.toInt width && s.pass.isFinal then
      let cut := Word.hexText (Int64.ofInt (value.toInt % (Nat.pow 2 (8 * width) : Int)))
      s.warn token.span s!"value {value.toInt} does not fit in {width} byte(s), truncated to ${cut}"
    else
      s
  ((littleEndian width value.toInt).map some, s)

/-- Cells of data for the characters of a string. -/
def characterCells (s : Assembly) (token : Token) (width : Nat) : List Char → List Cell × Assembly
  | [] => ([], s)
  | c :: cs =>
    let (first, s) := s.cell token (Int64.ofNat c.toNat) width
    let (rest, s) := s.characterCells token width cs
    (first ++ rest, s)

/-- The cell of a value that is to be a number. -/
def numericCells (s : Assembly) (id : LineId) (token : Token) (value : Value) (width : Nat) :
    List Cell × Assembly :=
  match value.toWord with
  | .ok n => s.cell token n width
  | .error err => (List.replicate width none, s.fail id token.span err.message)

/-- The cells of one value. A string makes one for each character, and a value that is not known keeps
the place of one. -/
def valueCells (s : Assembly) (id : LineId) (token : Token) (e : Expression) (width : Nat) :
    List Cell × Assembly :=
  match s.evaluate id e token with
  | (.known (.string text), s) =>
    if text.length = 1 then s.numericCells id token (.string text) width
    else s.characterCells token width text.toList
  | (.known value, s) => s.numericCells id token value width
  | (_, s) => (List.replicate width none, s)

def dataCells (s : Assembly) (id : LineId) (width : Nat) :
    List (Token × Option Expression) → List Cell × Assembly
  | [] => ([], s)
  | (token, e) :: rest =>
    let (first, s) : List Cell × Assembly := match e with
      | some e => s.valueCells id token e width
      | none => (List.replicate width none, s)
    let (cells, s) := s.dataCells id width rest
    (first ++ cells, s)

def compileData (s : Assembly) (id : LineId) (part : Line.CommandPart) (width : Nat) : Assembly :=
  let (cells, s) := s.dataCells id width (part.arguments.zip part.expressions)
  s.emit id cells

def compileGroup (s : Assembly) (id : LineId) (part : Line.CommandPart) (width : Nat) : Assembly :=
  match part.state with
  | .group cells =>
    let (cells, s) := s.dataCells id width (cells.map fun c => (c.token, c.expression))
    s.emit id cells
  | _ => s

def compileHex (s : Assembly) (id : LineId) (part : Line.CommandPart) : Assembly :=
  match part.state with
  | .binary data => s.emit id (data.map some)
  | _ => s

/-- How many bytes of a file are kept room for while its window is not known. -/
def reservedSize (size : Nat) (start length : Option Int64) : Nat :=
  match start, length with
  | _, some n => n.toInt.toNat
  | some n, none => size - n.toInt.toNat
  | none, none => size

/-- An argument of a window: `none` when it is not written. -/
def windowWord (s : Assembly) (id : LineId) (count index : Nat) : Answer (Option Int64) × Assembly :=
  if index < count then
    match s.argumentWord id index with
    | (.known n, s) => (.known (some n), s)
    | (.pending, s) => (.pending, s)
    | (.failed, s) => (.failed, s)
  else
    (.known none, s)

/-- The arguments of a window: `none` for one that is not written or not known, and whether one is not
known. Nothing when one has failed. -/
def windowWords (s : Assembly) (id : LineId) (count : Nat) :
    Option (Option Int64 × Option Int64 × Bool) × Assembly :=
  match s.windowWord id count 1 with
  | (.failed, s) => (none, s)
  | (.pending, s) =>
    match s.windowWord id count 2 with
    | (.failed, s) => (none, s)
    | (.pending, s) => (some (none, none, true), s)
    | (.known length, s) => (some (none, length, true), s)
  | (.known start, s) =>
    match s.windowWord id count 2 with
    | (.failed, s) => (none, s)
    | (.pending, s) => (some (start, none, true), s)
    | (.known length, s) => (some (start, length, false), s)

/-- Writes a window of a file, or keeps room for it while it is not known. -/
def compileBinary (s : Assembly) (id : LineId) (part : Line.CommandPart) : Assembly :=
  match part.state with
  | .binary data =>
    match s.windowWords id part.arguments.length with
    | (none, s) => s
    | (some (start, length, true), s) =>
      s.emit id (List.replicate (reservedSize data.length start length) none)
    | (some (start, length, false), s) =>
      match window data start length with
      | .ok bytes => s.emit id (bytes.map some)
      | .error e => s.valueError id (s.line id).origin.span e.message
  | _ => s

/-- The length of a row of an enumeration, if it is known. -/
def rowLength (s : Assembly) (id : LineId) (row : EnumRow) : Option Int64 × Assembly :=
  match row.expression, row.length with
  | some e, some token =>
    let (answer, s) := s.evaluateWord id e token
    (answer.value?, s)
  | none, some _ => (none, s)
  | _, none => (some 1, s)

/-- Gives rows of an enumeration their values from the given one on. After a length that is not known,
rows keep the values they have. -/
def compileRows (s : Assembly) (id : LineId) (current : Option Int64) : List EnumRow → Assembly
  | [] => s
  | row :: rows =>
    let s := match current with
      | some n => s.setLabelValue row.label (some (.ofWord n))
      | none => s
    let (length, s) := s.rowLength id row
    let next := match current, length with
      | some n, some size => some (n + size)
      | _, _ => none
    s.compileRows id next rows

/-- Gives the rows of an enumeration their values. -/
def compileEnumeration (s : Assembly) (id : LineId) (part : Line.CommandPart) : Assembly :=
  match part.state with
  | .enumeration rows =>
    let s := s.note (.numbered id)
    if part.arguments.isEmpty then
      s.compileRows id (some 0) rows
    else
      let (start, s) := s.argumentWord id 0
      s.compileRows id start.value? rows
  | _ => s

/-- The values of arguments, if all are known. -/
def argumentValues (s : Assembly) (id : LineId) :
    List (Token × Option Expression) → Option (List Value) × Assembly
  | [] => (some [], s)
  | (_, none) :: _ => (none, s)
  | (token, some e) :: rest =>
    match s.evaluate id e token with
    | (.known value, s) =>
      match s.argumentValues id rest with
      | (some values, s) => (some (value :: values), s)
      | (none, s) => (none, s)
    | (_, s) => (none, s)

/-- The text of a message: a format and values for its placeholders. -/
def formatMessage (s : Assembly) (id : LineId) (part : Line.CommandPart) : Option String × Assembly :=
  match s.argumentValues id (part.arguments.zip part.expressions), part.arguments with
  | (some (format :: values), s), first :: _ =>
    match format with
    | .string format =>
      match Message.render format values with
      | .ok text => (some text, s)
      | .error e => (none, s.fail id first.span e.message)
    | .number _ => (none, s.fail id first.span "expected a format string")
  | (_, s), _ => (none, s)

def compileMessage (s : Assembly) (id : LineId) (part : Line.CommandPart) : Assembly :=
  if s.pass.isFinal then
    match s.formatMessage id part with
    | (some text, s) => { s with messages := s.messages.push text }
    | (none, s) => s
  else
    s

/-- Reports the message of an error directive in the final pass. -/
def compileFailure (s : Assembly) (id : LineId) (part : Line.CommandPart) : Assembly :=
  if s.pass.isFinal then
    let span := (s.line id).origin.span
    if part.arguments.isEmpty then
      s.fail id span "error directive reached"
    else
      match s.formatMessage id part with
      | (some text, s) => s.fail id span text
      | (none, s) => s
  else
    s

end CrossAssembler.Assembly
