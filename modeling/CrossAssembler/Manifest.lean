import CrossAssembler.Files.Path
import CrossAssembler.Toml.Document

/-!
# Manifests

A manifest gives defaults for building the files next to it, in a table called `build`.

* `Manifest.read?` — the manifest in a text.
-/

namespace CrossAssembler

/-- Defaults for building. -/
structure Manifest where
  platform : Option String := none
  passes : Option Nat := none
  folders : List Path := []
  output : Option Path := none
  fill : Option UInt8 := none
  deriving Repr

namespace Manifest

inductive Field where
  | platform
  | passes
  | folders
  | output
  | fill
  deriving DecidableEq, Repr

def Field.all : List Field := [.platform, .passes, .folders, .output, .fill]

def Field.name : Field → String
  | platform => "platform"
  | passes => "passes"
  | folders => "include"
  | output => "output"
  | fill => "fill"

def Field.ofName? (name : String) : Option Field := all.find? fun f => f.name == name

def text? : Toml.Value → Option String
  | .text s => some s
  | _ => none

def number? (limit : Nat) : Toml.Value → Option Nat
  | .integer n => if 0 ≤ n ∧ n < limit then some n.toNat else none
  | _ => none

def texts? : Toml.Value → Option (List String)
  | .list items => items.mapM text?
  | _ => none

def set? (m : Manifest) : Field → Toml.Value → Option Manifest
  | .platform, v => (text? v).map fun s => { m with platform := some s }
  | .passes, v => (number? Word.count v).map fun n => { m with passes := some n }
  | .folders, v => (texts? v).map fun s => { m with folders := s }
  | .output, v => (text? v).map fun s => { m with output := some s }
  | .fill, v => (number? 256 v).map fun n => { m with fill := some n.toUInt8 }

/-- How the table of settings has been written so far. -/
inductive TableForm where
  | absent
  /-- By keys with dots. -/
  | dotted
  /-- By a header; it is open. -/
  | headed
  /-- As one value. -/
  | whole
  deriving DecidableEq, Repr

/-- A manifest while it is read. -/
structure Reading where
  manifest : Manifest := {}
  form : TableForm := .absent
  seen : List Field := []

/-- Takes in a setting. Each may be given once. -/
def Reading.assign? (r : Reading) (keys : List String) (value : Toml.Value) : Option Reading := do
  match keys with
  | [name] =>
    let field ← Field.ofName? name
    if r.seen.contains field then none
    let manifest ← r.manifest.set? field value
    some { r with manifest, seen := field :: r.seen }
  | _ => none

/-- Takes in all settings as one value: a table, or a list that gives them in their order. -/
def Reading.assignAll? (r : Reading) : Toml.Value → Option Reading
  | .table entries => entries.foldlM (fun r e => r.assign? e.1 e.2) r
  | .list items => (Field.all.zip items).foldlM (fun r e => r.assign? [e.1.name] e.2) r
  | _ => none

def Reading.take? (r : Reading) : Toml.Statement → Option Reading
  | .header keys => if keys = ["build"] ∧ r.form = .absent then some { r with form := .headed } else none
  | .listHeader _ => none
  | .assign keys value =>
    match r.form, keys with
    | .headed, _ => r.assign? keys value
    | .absent, ["build"] => (r.assignAll? value).map fun r => { r with form := .whole }
    | .absent, "build" :: rest | .dotted, "build" :: rest =>
      (r.assign? rest value).map fun r => { r with form := .dotted }
    | _, _ => none

def read? (text : String) : Option Manifest := do
  let statements ← Toml.read? text
  let r ← statements.foldlM Reading.take? ({} : Reading)
  some r.manifest

end Manifest

end CrossAssembler
