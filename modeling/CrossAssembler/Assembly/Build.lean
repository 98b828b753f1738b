import CrossAssembler.Assembly.Compilation

/-!
# Assembling files

* `Assembly.addFile`, `Assembly.analyzeFiles`, `Assembly.compile` — the steps of the work.
* `analyzeOnly` — what files declare, without output.
-/

namespace CrossAssembler

/-- A label as it is shown outside. -/
structure LabelEntry where
  name : String
  value : Option Value
  kind : LabelKind
  file : String
  line : Nat
  doc : Option String
  deriving Repr

namespace Assembly

def begin (settings : Settings) (files : Files) : Assembly := { settings, files }

def addFile (s : Assembly) (path : Path) (text : String) : Assembly :=
  let ((source, scope, ids), s) := s.loadSource path text
  { s with units := s.units ++ [{ path, source, scope, items := ids.map Item.line }] }

def unitItems (s : Assembly) (index : Nat) : List Item :=
  ((s.units[index]?).map fun u => u.items).getD []

/-- Puts the lines of a unit into their block structure and declares what they declare. -/
def declareUnit (s : Assembly) (index : Nat) : Assembly :=
  match s.units[index]? with
  | none => s
  | some u =>
    let (items, s) := s.arrange (u.items.map Item.id)
    let s := ((s.openUnit u.path).declare items).closeUnits
    { s with units := s.units.modify index fun u => { u with items } }

/-- Analyses units. All are declared before any is resolved, so macros can be used before the file that
defines them. -/
def analyzeUnits (s : Assembly) (indices : List Nat) : Assembly :=
  let s := indices.foldl declareUnit s
  let s := indices.foldl (fun s index => s.resolve (s.unitItems index)) s
  indices.foldl (fun s index => s.parse (s.unitItems index)) s

/-- Analyses the files that have not been analysed yet. -/
def analyzeFiles (s : Assembly) : Assembly :=
  let count := s.units.length
  { s.analyzeUnits (List.range' s.analyzed (count - s.analyzed)) with analyzed := count }

def compile (s : Assembly) : Assembly := s.analyzeFiles.runPasses

/-- The labels that can be seen from outside, by name. -/
def labelEntries (s : Assembly) : List LabelEntry :=
  (s.symbols.publicLabels.filter fun l => l.kind != .parameter).map fun l =>
    { name := l.name, value := l.value, kind := l.kind, file := s.sources.name l.source,
      line := l.token.line, doc := l.doc }

end Assembly

/-- What comes out of files without errors. -/
structure Output where
  image : Image
  warnings : List Diagnostic
  messages : List String
  labels : List LabelEntry
  sources : SourceStore

/-- Takes in files, analyses and compiles them. -/
def compileAll (settings : Settings) (files : Files) (inputs : List (Path × String)) : Assembly :=
  (inputs.foldl (fun s f => s.addFile f.1 f.2) (Assembly.begin settings files)).compile

/-- The output of an assembly, or its diagnostics when there is an error. -/
def Assembly.output (s : Assembly) : Except (List Diagnostic) Output :=
  if s.diagnostics.hasErrors then
    .error s.diagnostics.toList
  else
    .ok { image := s.image, warnings := s.diagnostics.toList, messages := s.messages.toList,
          labels := s.labelEntries, sources := s.sources }

/-- The output for some files, or what is wrong with them. -/
def assemble (settings : Settings) (files : Files) (inputs : List (Path × String)) :
    Except (List Diagnostic) Output :=
  (compileAll settings files inputs).output

def analyzeOnly (settings : Settings) (files : Files) (inputs : List (Path × String)) : Assembly :=
  (inputs.foldl (fun s f => s.addFile f.1 f.2) (Assembly.begin settings files)).analyzeFiles

end CrossAssembler
