import CrossAssembler.Assembly.Naming

/-!
# Expressions on lines

* `Assembly.parseExpression` — reads an expression and notes the names in it.
* `Assembly.evaluate`, `Assembly.evaluateWord` — the value of an expression on a line.
-/

namespace CrossAssembler.Assembly

def addReferences (s : Assembly) (source : SourceId) (e : Expression) : Assembly :=
  { s with
    symbols := e.references.foldl (fun symbols r =>
      match r.1 with
      | .named name => symbols.addReference source name
      | _ => symbols) s.symbols }

def parseExpression (s : Assembly) (id : LineId) (token : Token) : Option Expression × Assembly :=
  match Expression.parse token.text with
  | .ok e => (some e, s.addReferences token.source e)
  | .error e =>
    let span := match e.range? with
      | some (start, stop) => token.subSpan start stop
      | none => token.span
    (none, s.fail id span e.message)

def parseExpressions (s : Assembly) (id : LineId) : List Token → List (Option Expression) × Assembly
  | [] => ([], s)
  | token :: tokens =>
    let (e, s) := s.parseExpression id token
    let (es, s) := s.parseExpressions id tokens
    (e :: es, s)

/-- Reads the arguments of a directive but for the first few, which are no expressions. -/
def parseArguments (s : Assembly) (id : LineId) (skipped : Nat) : Assembly :=
  match (s.line id).command? with
  | none => s
  | some part =>
    let (es, s) := s.parseExpressions id (part.arguments.drop skipped)
    let expressions := List.replicate (min skipped part.arguments.length) none ++ es
    s.modifyLine id fun l => l.modifyCommand fun part => { part with expressions }

/-- The label that a reference names in an expression that stands at a token in a scope, and its
value. -/
def lookUp? (s : Assembly) (scope : ScopeId) (token : Token) (r : Reference) (start : Nat) :
    Option Lookup :=
  (s.symbols.resolve? r scope token.line (token.column + start)).bind fun label =>
    (s.symbols.label label).value.map fun value => ⟨r, start, label, value⟩

/-- The values of references in an expression that stands at a token in a scope. -/
def resolver (s : Assembly) (scope : ScopeId) (token : Token) (org : Int64) : Expression.Resolver :=
  fun r start _ =>
    match r with
    | .here => some (.ofWord org)
    | _ => (s.lookUp? scope token r start).map fun found => found.value

/-- The place an evaluation error is shown at. -/
def errorSpan (token : Token) : Expression.Error → Span
  | .unresolved _ start stop => token.subSpan start stop
  | _ => token.span

def evaluate (s : Assembly) (id : LineId) (e : Expression) (token : Token) : Answer Value × Assembly :=
  let line := s.line id
  let outcome := e.evaluate (s.resolver line.scope token line.org) s.pass.mode
  let lookups := e.references.filterMap fun r => s.lookUp? line.scope token r.1 r.2.1
  let s := s.note (.evaluated
    { expression := e, token, scope := line.scope, org := line.org, lookups, outcome })
  match outcome with
  | .ok (.resolved value) => (.known value, s)
  | .ok (.pending ..) => (.pending, s.countPending)
  | .error err => (.failed, s.valueError id (errorSpan token err) err.message)

/-- The integer value of an expression on a line. -/
def evaluateWord (s : Assembly) (id : LineId) (e : Expression) (token : Token) :
    Answer Int64 × Assembly :=
  match s.evaluate id e token with
  | (.known value, s) =>
    match value.toWord with
    | .ok n => (.known n, s)
    | .error err => (.failed, s.fail id token.span err.message)
  | (.pending, s) => (.pending, s)
  | (.failed, s) => (.failed, s)

/-- The integer value of an argument of a directive. -/
def argumentWord (s : Assembly) (id : LineId) (index : Nat) : Answer Int64 × Assembly :=
  match (s.line id).command? with
  | none => (.pending, s)
  | some part =>
    match part.expression? index, part.arguments[index]? with
    | some e, some token => s.evaluateWord id e token
    | _, _ => (.pending, s)

end CrossAssembler.Assembly
