import CrossAssembler.Files.Path
import CrossAssembler.Instruction.Platform
import CrossAssembler.Word

/-!
# Command-line arguments

* `Request.read?` — the request in some arguments.
-/

namespace CrossAssembler

/-- How files are assembled, as far as the command line says. -/
structure Target where
  platform : Option Platform := none
  passes : Option Nat := none
  folders : List Path := []
  manifest : Option Path := none
  deriving Repr

/-- What the command line asks for. -/
inductive Request where
  | banner
  | version
  | help
  | build (input : Path) (output : Option Path) (fill : Option UInt8) (target : Target)
  | check (inputs : List Path) (target : Target)
  | labels (input : Path) (target : Target)
  deriving Repr

namespace Request

inductive Flag where
  | logLevel
  | platform
  | passes
  | folder
  | manifest
  | output
  | fill
  | help
  | version
  deriving DecidableEq, Repr

namespace Flag

/-- How an option is written after two dashes. -/
def long : Flag → String
  | logLevel => "log-level"
  | platform => "platform"
  | passes => "passes"
  | folder => "include"
  | manifest => "config"
  | output => "output"
  | fill => "fill"
  | help => "help"
  | version => "version"

def short? : Flag → Option Char
  | platform => some 'p'
  | folder => some 'I'
  | output => some 'o'
  | help => some 'h'
  | version => some 'V'
  | _ => none

def takesValue : Flag → Bool
  | help | version => false
  | _ => true

/-- Whether an option may be given more than once. -/
def isRepeatable : Flag → Bool
  | folder => true
  | _ => false

end Flag

abbrev Given := Flag × String

/-- What is read from arguments: options, and what is none. -/
structure Split where
  options : List Given := []
  others : List String := []

def Split.option (s : Split) (flag : Flag) (value : String) : Split :=
  { s with options := (flag, value) :: s.options }

/-- Whether an argument is written as an option. A dash alone is none. -/
def isOption (argument : String) : Bool :=
  match argument.toList with
  | '-' :: _ :: _ => true
  | _ => false

def cutAtEquals (cs : List Char) : List Char × Option (List Char) :=
  let before := cs.takeWhile (· != '=')
  match cs.drop before.length with
  | _ :: after => (before, some after)
  | [] => (before, none)

/-- The option an argument is written as, and the value written with it. -/
def option? (allowed : List Flag) (argument : String) : Option (Flag × Option String) :=
  match argument.toList with
  | '-' :: '-' :: cs =>
    let (name, value) := cutAtEquals cs
    (allowed.find? fun f => f.long == String.ofList name).map fun f => (f, value.map String.ofList)
  | '-' :: c :: cs =>
    let value := match cs with
      | [] => none
      | '=' :: rest => some rest
      | _ => some cs
    (allowed.find? fun f => f.short? == some c).map fun f =>
      (f, if f.takesValue then value.map String.ofList else none)
  | _ => none

/-- Cuts arguments into options and others. After two dashes there are no more options. An option
without a value asks for something else to be done at once, so nothing after it is read. With `single`
only the first of the others is wanted; it and what follows it are given as they are. -/
def split? (allowed : List Flag) (single : Bool) : List String → Option Split
  | [] => some {}
  | argument :: rest =>
    if argument = "--" then
      if single && !rest.isEmpty then none else some { others := rest }
    else if isOption argument then
      match option? allowed argument with
      | none => none
      | some (flag, value) =>
        match flag.takesValue, value with
        | false, none => some (({} : Split).option flag "")
        | false, some _ => none
        | true, some v => (split? allowed single rest).map fun s => s.option flag v
        | true, none =>
          match rest with
          | [] => none
          | v :: rest =>
            if isOption v then none else (split? allowed single rest).map fun s => s.option flag v
    else if single then
      some { others := argument :: rest }
    else
      (split? allowed single rest).map fun s => { s with others := argument :: s.others }

def isLogLevel (value : String) : Bool :=
  (["error", "warn", "info", "debug", "trace"].any fun name => Text.sameUpToCase name value) ||
    (Word.readNat? 6 value.toList).any fun n => n != 0

/-- The byte that a text stands for. A sign may stand before it. -/
def byte? (value : String) : Option UInt8 :=
  match value.toList with
  | '-' :: cs => if cs.head? = some '+' then none else (Word.readNat? 1 cs).map fun n => n.toUInt8
  | cs => (Word.readNat? 256 cs).map fun n => n.toUInt8

/-- What the options say. -/
structure Chosen where
  target : Target := {}
  output : Option Path := none
  fill : Option UInt8 := none
  help : Bool := false
  version : Bool := false

def path? (value : String) : Option Path := if value.isEmpty then none else some value

def Chosen.take? (c : Chosen) : Given → Option Chosen
  | (.logLevel, v) => if isLogLevel v then some c else none
  | (.platform, v) => (Platform.ofName? v).map fun p => { c with target := { c.target with platform := some p } }
  | (.passes, v) =>
    (Word.readNat? Word.count v.toList).map fun n => { c with target := { c.target with passes := some n } }
  | (.folder, v) =>
    (path? v).map fun p => { c with target := { c.target with folders := c.target.folders ++ [p] } }
  | (.manifest, v) => (path? v).map fun p => { c with target := { c.target with manifest := some p } }
  | (.output, v) => (path? v).map fun p => { c with output := some p }
  | (.fill, v) => (byte? v).map fun b => { c with fill := some b }
  | (.help, _) => some { c with help := true }
  | (.version, _) => some { c with version := true }

/-- Whether no option is given twice that may be given once. -/
def areDistinct : List Given → Bool
  | [] => true
  | (flag, _) :: rest => (flag.isRepeatable || rest.all fun g => g.1 != flag) && areDistinct rest

def choose? (options : List Given) : Option Chosen :=
  if areDistinct options then options.foldlM Chosen.take? ({} : Chosen) else none

def common : List Flag := [.logLevel, .platform, .passes, .folder, .manifest, .help]

def commandNames : List String := ["build", "check", "labels", "help"]

/-- What the arguments of a command say: options and inputs, of which there may be at most so many. -/
def operands? (allowed : List Flag) (limit : Option Nat) (arguments : List String) :
    Option (Chosen × List Path) := do
  let s ← split? allowed false arguments
  let c ← choose? s.options
  let inputs ← s.others.mapM path?
  if limit.any (· < inputs.length) then none else some (c, inputs)

/-- The request of a command with its arguments. Help may be asked for on one command at a time. -/
def ofCommand? (name : String) (arguments : List String) : Option Request := do
  match name with
  | "build" =>
    let (c, inputs) ← operands? (common ++ [.output, .fill]) (some 1) arguments
    if c.help then return .help
    inputs.head?.map fun input => .build input c.output c.fill c.target
  | "check" =>
    let (c, inputs) ← operands? common none arguments
    if c.help then return .help
    if inputs.isEmpty then none else some (.check inputs c.target)
  | "labels" =>
    let (c, inputs) ← operands? common (some 1) arguments
    if c.help then return .help
    inputs.head?.map fun input => .labels input c.target
  | "help" =>
    match arguments with
    | [] => some .help
    | [name] => if commandNames.contains name then some .help else none
    | _ => none
  | _ => none

def read? (arguments : List String) : Option Request := do
  let s ← split? [.logLevel, .help, .version] true arguments
  let c ← choose? s.options
  if c.help then return .help
  if c.version then return .version
  match s.others with
  | [] => some .banner
  | name :: rest => ofCommand? name rest

end Request

end CrossAssembler
