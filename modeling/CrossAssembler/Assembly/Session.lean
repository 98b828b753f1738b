import CrossAssembler.Assembly.Build

/-!
# Sessions

A session keeps the analysis of some files while they are edited. Only a file that changes is analysed
again.

* `Session.setFile`, `Session.removeFile` — add, replace and remove files.
-/

namespace CrossAssembler

/-- The analysis of some files. -/
structure Session where
  assembly : Assembly

namespace Session

def begin (settings : Settings) (files : Files) : Session := ⟨.begin settings files⟩

def index? (s : Session) (path : Path) : Option Nat :=
  s.assembly.units.findIdx? fun u => u.path.same path

def unit? (s : Session) (path : Path) : Option SourceUnit :=
  s.assembly.units.find? fun u => u.path.same path

/-- The source of a file and those it includes. -/
def ownedSources (u : SourceUnit) : List SourceId := u.source :: u.includes

/-- Lets go of what a file and the files it includes have made. Its own source comes last, so that the
number is used again for the file that replaces it. -/
def release (s : Assembly) (u : SourceUnit) : Assembly := s.releaseSources (ownedSources u).reverse

def setFile (s : Session) (path : Path) (text : String) : Session :=
  let a := s.assembly
  match s.index? path, s.unit? path with
  | some index, some u =>
    let ((source, scope, ids), a) := (release a u).loadSource path text
    let fresh : SourceUnit := { path, source, scope, items := ids.map Item.line }
    let a := { a with units := a.units.set index fresh }.analyzeUnits [index]
    ⟨{ a with analyzed := a.units.length }⟩
  | _, _ =>
    let index := a.units.length
    let a := (a.addFile path text).analyzeUnits [index]
    ⟨{ a with analyzed := a.units.length }⟩

/-- Removes a file, and tells whether there was one. -/
def removeFile (s : Session) (path : Path) : Bool × Session :=
  match s.index? path, s.unit? path with
  | some index, some u =>
    let a := release s.assembly u
    let units := a.units.eraseIdx index
    (true, ⟨{ a with units, analyzed := units.length }⟩)
  | _, _ => (false, s)

def files (s : Session) : List Path := s.assembly.units.map fun u => u.path

/-- The labels of a file and the files it includes, told by the names of their sources. -/
def labels (s : Session) (path : Path) : List LabelEntry :=
  match s.unit? path with
  | none => []
  | some u =>
    let names := (ownedSources u).map s.assembly.sources.name
    s.assembly.labelEntries.filter fun l => names.contains l.file

/-- The names of the macros of a file and the files it includes. -/
def macros (s : Session) (path : Path) : List String :=
  match s.unit? path with
  | none => []
  | some u =>
    (s.assembly.symbols.macros.filter fun m => (ownedSources u).contains m.source).map fun m => m.name

/-- The diagnostics of a file, then those of the files it includes. -/
def diagnostics (s : Session) (path : Path) : List Diagnostic :=
  match s.unit? path with
  | none => []
  | some u => (ownedSources u).flatMap fun source => s.assembly.diagnostics.ofSource source

end Session

end CrossAssembler
