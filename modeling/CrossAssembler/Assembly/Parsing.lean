import CrossAssembler.Assembly.Resolution

/-!
# Operands and arguments

* `Assembly.parseHex` — reads hexadecimal data.
* `Assembly.analyze` — declares, resolves and parses lines.
-/

namespace CrossAssembler.Assembly

open Text

/-- Reads the expressions in parts of an operand; `none` when one cannot be read. -/
def parseSlices (s : Assembly) (id : LineId) (operand : Token) :
    List (Nat × Nat) → Option (List (Token × Expression)) × Assembly
  | [] => (some [], s)
  | (start, stop) :: rest =>
    let token := (operand.slice start stop).trimmed
    match s.parseExpression id token with
    | (none, s) => (none, s)
    | (some e, s) =>
      match s.parseSlices id operand rest with
      | (none, s) => (none, s)
      | (some es, s) => (some ((token, e) :: es), s)

/-- Finds the form of an instruction's operand and reads its expressions. -/
def parseInstruction (s : Assembly) (id : LineId) (part : Line.InstructionPart) : Assembly :=
  match s.instructions.matchOperand part.base part.operand.text with
  | .error e =>
    s.fail id (if part.operand.isEmpty then part.mnemonic.span else part.operand.span) e.message
  | .ok (form, slices) =>
    match s.parseSlices id part.operand slices with
    | (none, s) => s
    | (some expressions, s) =>
      s.modifyLine id fun l =>
        match l.kind with
        | .instruction part =>
          { l with kind := .instruction { part with matched := some ⟨form, expressions⟩ } }
        | _ => l

def parseVariable (s : Assembly) (id : LineId) (part : Line.VariablePart) : Assembly :=
  let (parsed, s) := s.parseExpression id part.expression
  s.modifyLine id fun l =>
    match l.kind with
    | .variable part => { l with kind := .variable { part with parsed } }
    | _ => l

/-- Reads the lengths in rows of an enumeration. -/
def parseEnumRows (s : Assembly) (id : LineId) : List EnumRow → List EnumRow × Assembly
  | [] => ([], s)
  | row :: rows =>
    let (expression, s) : Option Expression × Assembly := match row.length with
      | some token => s.parseExpression id token
      | none => (none, s)
    let (rows, s) := s.parseEnumRows id rows
    ({ row with expression } :: rows, s)

/-- Reads the start and the lengths of an enumeration. -/
def parseEnumeration (s : Assembly) (id : LineId) : Assembly :=
  let s := s.parseArguments id 0
  match s.directiveState id with
  | .enumeration rows =>
    let (rows, s) := s.parseEnumRows id rows
    s.setDirectiveState id (.enumeration rows)
  | _ => s

def parseCells (s : Assembly) (id : LineId) : List GroupCell → List GroupCell × Assembly
  | [] => ([], s)
  | cell :: cells =>
    let (expression, s) := s.parseExpression id cell.token
    let (cells, s) := s.parseCells id cells
    ({ cell with expression } :: cells, s)

def parseGroup (s : Assembly) (id : LineId) : Assembly :=
  match s.directiveState id with
  | .group cells =>
    let (cells, s) := s.parseCells id cells
    s.setDirectiveState id (.group cells)
  | _ => s

/-- The runs of characters between blanks, each with the byte it starts at. `run` holds the current
one, reversed. -/
def blankSeparated (offset : Nat) (run : List Char) : List Char → List (Nat × List Char)
  | [] => if run.isEmpty then [] else [(offset - byteLength run, run.reverse)]
  | c :: cs =>
    if isBlank c then
      if run.isEmpty then
        blankSeparated (offset + c.utf8Size) [] cs
      else
        (offset - byteLength run, run.reverse) :: blankSeparated (offset + c.utf8Size) [] cs
    else
      blankSeparated (offset + c.utf8Size) (c :: run) cs

/-- The bytes that pairs of hexadecimal digits stand for. -/
def hexPairs? : List Char → Option (List UInt8)
  | [] => some []
  | [_] => none
  | a :: b :: rest =>
    match Word.readDigits? 16 [a, b], hexPairs? rest with
    | some n, some bytes => some (n.toUInt8 :: bytes)
    | _, _ => none

/-- The bytes of groups of hexadecimal digits, or the first group that is none. -/
def hexGroups (groups : List (Nat × List Char)) : Except (Nat × List Char) (List UInt8) :=
  match groups with
  | [] => .ok []
  | (start, group) :: rest =>
    match hexPairs? group with
    | none => .error (start, group)
    | some bytes => (hexGroups rest).map fun more => bytes ++ more

/-- The bytes that a text of hexadecimal digits stands for, or its first group that is none. -/
def readHex (cs : List Char) : Except (Nat × List Char) (List UInt8) := hexGroups (blankSeparated 0 [] cs)

def parseHex (s : Assembly) (id : LineId) (part : Line.CommandPart) : Assembly :=
  match part.arguments with
  | [] => s
  | argument :: _ =>
    match readHex argument.text.toList with
    | .ok bytes => s.setDirectiveState id (.binary bytes)
    | .error (start, group) =>
      let token := argument.place start group
      s.fail id token.span s!"invalid hex group '{token.text}'"

/-- Reads the arguments of a directive that names a file of data, and the file. -/
def parseBinary (s : Assembly) (id : LineId) (part : Line.CommandPart) : Assembly :=
  match s.fileArgument id part with
  | (none, s) => s
  | (some name, s) =>
    match (s.parseArguments id 1).locate id name with
    | (none, s) => s
    | (some (path, data), s) => (s.noteReading path).setDirectiveState id (.binary data)

def parseHeader (s : Assembly) (header : LineId) : Assembly :=
  match (s.line header).command? with
  | none => s
  | some part =>
    match part.directive with
    | .when | .elseWhen => s.parseArguments header 0
    | .whenDefined | .whenUndefined =>
      match part.arguments with
      | [] => s
      | name :: _ =>
        if isPlainName name.text then s
        else s.fail header name.span s!"'{name.text}' is not a label name"
    | _ => s

/-- Reads the conditions of the branches of a conditional. -/
def parseHeaders (s : Assembly) (id : LineId) (headers : List LineId) : Assembly :=
  headers.foldl (fun s header =>
    if header = id then
      if (s.line header).isSkipped then s else s.parseHeader header
    else
      let s := ((s.checkArguments header).checkLabel header).2
      if (s.line header).isSkipped then s else (s.parseHeader header).mark header .finished) s

/-- Reads the conditions of a conditional. It takes no further part when one of its later branches has
none that can be used. -/
def parseConditional (s : Assembly) (id : LineId) (headers : List LineId) : Assembly :=
  let s := s.parseHeaders id headers
  let s :=
    if headers.any fun header => header != id && (s.line header).isSkipped then s.mark id .error else s
  s.setDirectiveState id (.branches
    { active := none, activated := headers.map fun _ => false, bound := headers.map fun _ => [] })

/-- The headers of the branches of a conditional. -/
def branchHeaders : Item → List LineId
  | .line _ => []
  | .conditional _ branches => branches.map fun b => b.1

def parseCommand (parse : Assembly → List Item → Assembly) (s : Assembly) (item : Item)
    (part : Line.CommandPart) : Assembly :=
  let id := item.id
  match part.directive with
  | .org | .base | .bytes | .words | .longs | .message | .failure | .repetition => s.parseArguments id 0
  | .define => s.parseArguments id 1
  | .enumeration => s.parseEnumeration id
  | .byteGroup | .wordGroup | .longGroup => s.parseGroup id
  | .when | .whenDefined | .whenUndefined => s.parseConditional id (branchHeaders item)
  | .includeSource =>
    match part.state with
    | .included _ items => parse s items
    | _ => s
  | .includeBinary => s.parseBinary id part
  | .hexBytes => s.parseHex id part
  | _ => s

/-- Reads the arguments of a macro call and parses its lines. -/
def parseCall (parse : Assembly → List Item → Assembly) (s : Assembly) (id : LineId)
    (part : Line.CallPart) : Assembly :=
  let (expressions, s) := s.parseExpressions id part.arguments
  let s := s.modifyLine id fun l =>
    match l.kind with
    | .call part => { l with kind := .call { part with expressions } }
    | _ => l
  match part.expansion with
  | some expansion => parse s expansion.items
  | none => s

/-- Reads the operand or the arguments of a line, which is then finished unless something is wrong. -/
def parseItem (calls files : Assembly → List Item → Assembly) (s : Assembly) (item : Item) : Assembly :=
  let id := item.id
  let line := s.line id
  if line.isSkipped then
    s
  else
    let s := match line.kind with
      | .instruction part => s.parseInstruction id part
      | .variable part => s.parseVariable id part
      | .command part => parseCommand files s item part
      | .call part => parseCall calls s id part
      | .label | .unknown => s
    s.mark id .finished

/-- Reads the operands and arguments of lines, as deep as they may be nested. -/
def parseWithin : Budget → Assembly → List Item → Assembly
  | .spent, s, _ => s
  | .left calls files, s, items =>
    items.foldl (fun s item =>
      if s.stopped then s else parseItem (parseWithin calls) (parseWithin files) s item) s

/-- Reads the operands and arguments of lines. -/
def parse (s : Assembly) (items : List Item) : Assembly := parseWithin .full s items

def analyze (s : Assembly) (items : List Item) : Assembly :=
  ((s.declare items).resolve items).parse items

end CrossAssembler.Assembly
