import CrossAssembler.Source.File

/-!
# Diagnostics

* `Diagnostic` — an error or warning about a place in a source.
* `Diagnostic.render` — its one-line form.
-/

namespace CrossAssembler

/-- Whether a diagnostic stops the output. -/
inductive Severity where
  | error
  | warning
  deriving DecidableEq, Repr

def Severity.name : Severity → String
  | error => "error"
  | warning => "warning"

/-- A remark below a diagnostic. -/
inductive Remark where
  | help (text : String)
  | note (text : String)
  deriving DecidableEq, Repr

/-- An error or warning about a place, with further places and remarks. -/
structure Diagnostic where
  severity : Severity
  message : String
  primary : Span
  labels : List (Span × String) := []
  remarks : List Remark := []
  deriving DecidableEq, Repr

namespace Diagnostic

def isError (d : Diagnostic) : Bool := d.severity == .error

/-- A place as `file:line:column`. -/
def place (sources : SourceStore) (s : Span) : String :=
  match sources.get? s.source with
  | some f =>
    let (line, column) := f.position s.start
    s!"{f.name}:{line}:{column}"
  | none => "<unknown>"

/-- The one-line form `file:line:column: severity: message`. -/
def render (sources : SourceStore) (d : Diagnostic) : String :=
  s!"{place sources d.primary}: {d.severity.name}: {d.message}"

end Diagnostic

abbrev Diagnostics := Array Diagnostic

namespace Diagnostics

def errorCount (ds : Diagnostics) : Nat := ds.countP Diagnostic.isError

def hasErrors (ds : Diagnostics) : Bool := ds.any Diagnostic.isError

def ofSource (ds : Diagnostics) (id : SourceId) : List Diagnostic :=
  ds.toList.filter fun d => d.primary.source == id

/-- The diagnostics without those about a source. -/
def withoutSource (ds : Diagnostics) (id : SourceId) : Diagnostics :=
  ds.filter fun d => d.primary.source != id

end Diagnostics

end CrossAssembler
