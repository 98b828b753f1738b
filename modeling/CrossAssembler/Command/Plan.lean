import CrossAssembler.Command.Settings
import CrossAssembler.Text.Escaped

/-!
# Commands

A command is worked out without touching the disk: what it prints, what it writes and how it fails.

* `Request.plan` — what a request asks to be done, given what stands on the disk.
* `Request.paths` — the paths a request looks at by itself.
* `Plan.performOn` — carries out a plan on a volume.
-/

namespace CrossAssembler

/-- What a command does. -/
structure Plan where
  /-- Lines for the standard output. -/
  output : List String := []
  /-- Lines for the standard error output. -/
  remarks : List String := []
  /-- A file to be written. -/
  write : Option (Path × List UInt8) := none
  failure : Option Failure := none
  /-- The paths that were looked up in the work. -/
  lookups : List Path := []

/-- The first lines shown when nothing is asked for. -/
def banner : List String :=
  ["retroasm, version 0.1.0.",
   "Targets: 6502, 65C816, Game Boy (SM83), SPC700.",
   "License: 0BSD - free to use, copy, modify, and distribute."]

def usage : List String :=
  ["Usage: retroasm [--log-level LEVEL] [COMMAND]",
   "",
   "  build INPUT [-o OUT] [--fill BYTE] [TARGET]  assemble a file into a flat binary",
   "  check INPUT... [TARGET]                      analyse files without output",
   "  labels INPUT [TARGET]                        assemble a file and list its labels",
   "",
   "TARGET: [-p PLATFORM] [--passes N] [-I FOLDER]... [--config FILE]"]

/-- A text with spaces after it up to a width. -/
def padRight (width : Nat) (text : String) : String :=
  text ++ String.ofList (List.replicate (width - text.length) ' ')

/-- A text with spaces before it up to a width. -/
def padLeft (width : Nat) (text : String) : String :=
  String.ofList (List.replicate (width - text.length) ' ') ++ text

/-- A number in at least four hexadecimal digits. -/
def hexAddress (n : Int64) : String :=
  let digits := Word.hexText n
  "$" ++ String.ofList (List.replicate (4 - digits.length) '0') ++ digits

def listedValue : Option Value → String
  | none => "?"
  | some (.string text) => Text.escaped text
  | some v =>
    match v.toWord with
    | .ok n => if n < 0 then toString n.toInt else hexAddress n
    | .error _ => v.text

def nameWidth (labels : List LabelEntry) : Nat :=
  labels.foldl (fun width l => max width l.name.utf8ByteSize) 0

/-- The listing of labels: names, values and places. -/
def labelTable (labels : List LabelEntry) : List String :=
  labels.map fun l =>
    padRight (nameWidth labels) l.name ++ "  " ++ padLeft 8 (listedValue l.value) ++ "  " ++ l.file ++ ":" ++
      toString l.line

/-- The name of a file cut at its last dot, unless that is at its start. -/
def splitExtension (name : String) : String × Option String :=
  match Text.splitAtLastDot name.toList with
  | some ([], _) | none => (name, none)
  | some (stem, extension) => (String.ofList stem, some (String.ofList extension))

/-- The path with another extension after the name of its file. -/
def withExtension (path : Path) (extension : String) : Path :=
  let cs := path.toList
  let name := (cs.reverse.takeWhile (· != '/')).reverse
  String.ofList (cs.take (cs.length - name.length)) ++ (splitExtension (String.ofList name)).1 ++ "." ++
    extension

/-- Whether a file is assembly source by its name. -/
def isSourcePath (path : Path) : Bool :=
  match path.fileName? with
  | none => false
  | some name =>
    if name = ".." then
      false
    else
      match (splitExtension name).2 with
      | some e => Text.sameUpToCase e "asm" || Text.sameUpToCase e "s"
      | none => false

/-- Assembles a file, or says why it fails. The assembly is given in both cases. -/
def assembleFile (disk : Disk) (settings : Settings) (input : Path) :
    Except Failure Assembly :=
  match disk.readText input with
  | .error cause => .error (.unreadable input cause)
  | .ok text => .ok (compileAll settings disk.files [(input, text)])

def renderAll (sources : SourceStore) (ds : List Diagnostic) : List String :=
  ds.map fun d => d.render sources

def finish (s : Assembly) (deliver : Output → Plan) : Plan :=
  match s.output with
  | .error ds => { failure := some (.notAssembled (renderAll s.sources ds)), lookups := s.lookups }
  | .ok out => { deliver out with remarks := renderAll out.sources out.warnings, lookups := s.lookups }

def planBuild (disk : Disk) (input : Path) (output : Option Path) (fill : Option UInt8) (target : Target) :
    Plan :=
  match BuildSettings.choose disk target input output fill with
  | .error e => { failure := some e }
  | .ok settings =>
    match assembleFile disk settings.assembly input with
    | .error e => { failure := some e }
    | .ok s => finish s fun out =>
      { write := some (settings.output.getD (withExtension input "bin"), out.image.flatten settings.fill true) }

def planLabels (disk : Disk) (input : Path) (target : Target) : Plan :=
  match BuildSettings.choose disk target input none none with
  | .error e => { failure := some e }
  | .ok settings =>
    match assembleFile disk settings.assembly input with
    | .error e => { failure := some e }
    | .ok s => finish s fun out => { output := labelTable out.labels }

/-- The files that an input stands for: itself, or the sources in a folder. -/
def sourcesOf (disk : Disk) (input : Path) : List Path :=
  match disk input with
  | .folder below => (Disk.walk input below).filter isSourcePath
  | _ => [input]

/-- The texts of files, or the first that cannot be read. -/
def readTexts (disk : Disk) : List Path → Except Failure (List (Path × String))
  | [] => .ok []
  | path :: paths =>
    match disk.readText path with
    | .error cause => .error (.unreadable path cause)
    | .ok text => (readTexts disk paths).map fun rest => (path, text) :: rest

def planCheck (disk : Disk) (inputs : List Path) (target : Target) : Plan :=
  match inputs.flatMap (sourcesOf disk) with
  | [] => { failure := some .noSources }
  | first :: rest =>
    match BuildSettings.choose disk target first none none with
    | .error e => { failure := some e }
    | .ok settings =>
      match readTexts disk (first :: rest) with
      | .error e => { failure := some e }
      | .ok texts =>
        let s := analyzeOnly settings.assembly disk.files texts
        let plan : Plan := { remarks := renderAll s.sources s.diagnostics.toList, lookups := s.lookups }
        if s.diagnostics.hasErrors then
          { plan with failure := some (.errorsFound s.diagnostics.errorCount texts.length) }
        else
          { plan with output := [s!"{texts.length} file(s) checked, no errors"] }

namespace Request

def plan (disk : Disk) : Request → Plan
  | banner => { output := CrossAssembler.banner ++ [""] ++ usage }
  | version => { output := ["retroasm 0.1.0"] }
  | help => { output := usage }
  | build input output fill target => planBuild disk input output fill target
  | check inputs target => planCheck disk inputs target
  | labels input target => planLabels disk input target

def paths (disk : Disk) : Request → List Path
  | build input _ _ target | labels input target => [target.manifest.getD (manifestBeside input), input]
  | check inputs target =>
    let files := inputs.flatMap (sourcesOf disk)
    inputs ++ files ++ (files.head?.map fun first => target.manifest.getD (manifestBeside first)).toList
  | _ => []

end Request

namespace Plan

def unwritten (p : Plan) (path : Path) (error : SystemError) : Plan :=
  { p with failure := some (.unwritable path error) }

def performOn (p : Plan) (v : Volume) : Plan × Volume :=
  match p.failure, p.write with
  | none, some (path, data) =>
    match v.write path data with
    | .ok v => (p, v)
    | .error e => (p.unwritten path e, v)
  | _, _ => (p, v)

end Plan

end CrossAssembler
