import CrossAssembler.Assembly.Build
import CrossAssembler.Command.Arguments
import CrossAssembler.Files.Volume
import CrossAssembler.Manifest

/-!
# Settings of a command

What the command line does not say comes from the manifest, and what neither says has a default.

* `BuildSettings.choose` — the settings of a command.
-/

namespace CrossAssembler

/-- Why a command fails. -/
inductive Failure where
  | unreadable (path : Path) (cause : String)
  | badManifest (path : Path)
  | badPlatform (name : String)
  | noPasses
  | noSources
  | notAssembled (lines : List String)
  | errorsFound (errors files : Nat)
  | unwritable (path : Path) (cause : SystemError)
  deriving Repr

/-- The name of a manifest that is found by itself. -/
def manifestName : String := "retroasm.toml"

def Failure.message : Failure → String
  | unreadable path cause => s!"failed to read '{path}': {cause}"
  | badManifest path => s!"failed to parse '{path}'"
  | badPlatform name => s!"invalid platform in {manifestName}: {(Instruction.Error.unknownPlatform name).message}"
  | noPasses => "the pass count must be at least 1"
  | noSources => "no source files found"
  | notAssembled lines => "\n".intercalate lines
  | errorsFound errors files => s!"{errors} error(s) in {files} file(s)"
  | unwritable path cause => s!"failed to write '{path}': {cause.message}"

def folderOf (path : Path) : Path := path.parent?.getD "."

/-- The path of the manifest for a file, if none is given. -/
def manifestBeside (input : Path) : Path := (folderOf input).join manifestName

def isFile (disk : Disk) (path : Path) : Bool :=
  match disk path with
  | .file _ => true
  | _ => false

def readManifest (disk : Disk) (path : Path) : Except Failure Manifest :=
  match disk.readText path with
  | .error cause => .error (.unreadable path cause)
  | .ok text =>
    match Manifest.read? text with
    | some m => .ok m
    | none => .error (.badManifest path)

/-- The manifest that is given or stands beside a file, and the folder its paths start from. -/
def loadManifest (disk : Disk) (given : Option Path) (input : Path) : Except Failure (Manifest × Path) :=
  match given with
  | some path => (readManifest disk path).map fun m => (m, folderOf path)
  | none =>
    let path := manifestBeside input
    if isFile disk path then (readManifest disk path).map fun m => (m, folderOf path)
    else .ok ({}, folderOf input)

/-- The settings of a command. -/
structure BuildSettings where
  assembly : Settings
  output : Option Path
  fill : UInt8

def choosePlatform (given : Option Platform) (name : Option String) : Except Failure Platform :=
  match given, name with
  | some p, _ => .ok p
  | none, some name =>
    match Platform.ofName? name with
    | some p => .ok p
    | none => .error (.badPlatform name)
  | none, none => .ok default

def BuildSettings.choose (disk : Disk) (target : Target) (input : Path) (output : Option Path)
    (fill : Option UInt8) : Except Failure BuildSettings :=
  match loadManifest disk target.manifest input with
  | .error e => .error e
  | .ok (m, root) =>
    match choosePlatform target.platform m.platform with
    | .error e => .error e
    | .ok platform =>
      let passes := (target.passes <|> m.passes).getD 2
      if passes = 0 then
        .error .noPasses
      else
        .ok { assembly := { platform, passes, searchFolders := target.folders ++ m.folders.map root.join },
              output := output <|> m.output.map root.join
              fill := (fill <|> m.fill).getD 0 }

end CrossAssembler
