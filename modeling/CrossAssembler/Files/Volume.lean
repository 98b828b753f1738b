import CrossAssembler.Files.Tree

/-!
# Files on a disk

On a disk a path is followed step by step: a dot stays, two dots go up, and every step but the last has
to be a folder. Names and paths have a greatest length.

* `DiskEntry`, `Disk` — what stands at a path of a disk.
* `Volume.look`, `Volume.write` — what stands at a path, and the volume with a file written.
-/

namespace CrossAssembler

/-- Why a path cannot be used. -/
inductive SystemError where
  | notFound
  | notFolder
  | isFolder
  | tooLong
  | nulInName
  | other (text : String)
  deriving DecidableEq, Repr

def SystemError.message : SystemError → String
  | notFound => "No such file or directory (os error 2)"
  | notFolder => "Not a directory (os error 20)"
  | isFolder => "Is a directory (os error 21)"
  | tooLong => "File name too long (os error 36)"
  | nulInName => "file name contained an unexpected NUL byte"
  | other text => text

/-- What stands at a path of a disk. -/
inductive DiskEntry where
  | file (data : List UInt8)
  /-- A folder, with the files below it at any depth, each as the names that lead to it. -/
  | folder (below : List (List String))
  | missing (error : SystemError)
  deriving DecidableEq, Repr

abbrev Disk := Path → DiskEntry

namespace Disk

def files (d : Disk) : Files := fun path =>
  match d path with
  | .file data => .file data
  | .folder _ => .folder
  | .missing _ => .missing

/-- The text of a file, or why it cannot be had. -/
def readText (d : Disk) (path : Path) : Except String String :=
  match d path with
  | .missing e => .error e.message
  | .folder _ => .error SystemError.isFolder.message
  | .file data =>
    match decodeText? data with
    | some text => .ok text
    | none => .error "stream did not contain valid UTF-8"

def compareNames : List String → List String → Ordering
  | [], [] => .eq
  | [], _ :: _ => .lt
  | _ :: _, [] => .gt
  | a :: as, b :: bs => (compare a b).then (compareNames as bs)

/-- The paths of the files in a folder at any depth, each folder in the order of its names. -/
def walk (folder : Path) (below : List (List String)) : List Path :=
  (below.mergeSort fun a b => (compareNames a b).isLE).map fun names => names.foldl Path.join folder

end Disk

/-- The files below a working folder, each by the names that lead to it. -/
structure Volume where
  files : List (List String × List UInt8)
  deriving DecidableEq, Repr

namespace Volume

def namesOf (path : Path) : List String :=
  path.steps.foldl (fun names step =>
    match step with
    | .name n => names ++ [n]
    | .up => names.dropLast
    | _ => names) []

def ofTree (t : FileTree) : Volume := ⟨t.files.map fun f => (namesOf f.1, f.2)⟩

/-- The contents of the file that names lead to. -/
def file? (v : Volume) (names : List String) : Option (List UInt8) := v.files.lookup names

/-- Whether names lead to a folder. The working folder is one. -/
def isFolder (v : Volume) (names : List String) : Bool :=
  names.isEmpty || v.files.any fun f => names.isPrefixOf f.1 && f.1 != names

def nameLimit : Nat := 255

def pathLimit : Nat := 4095

/-- Why a path is refused before it is followed. -/
def refusal? (path : Path) : Option SystemError :=
  if path.toList.contains '\x00' then some .nulInName
  else if path.isEmpty then some .notFound
  else if pathLimit < path.utf8ByteSize then some .tooLong
  else none

/-- The names that steps lead to from a place. -/
def follow (v : Volume) (names : List String) : List Path.Step → Except SystemError (List String)
  | [] => .ok names
  | step :: steps =>
    if !v.isFolder names then
      .error (if (v.file? names).isSome then .notFolder else .notFound)
    else
      match step with
      | .here => v.follow names steps
      | .name n => if nameLimit < n.utf8ByteSize then .error .tooLong else v.follow (names ++ [n]) steps
      | .up => if names.isEmpty then .error .notFound else v.follow names.dropLast steps
      | .root => .error .notFound

def place (v : Volume) (path : Path) : Except SystemError (List String) :=
  match refusal? path with
  | some e => .error e
  | none => v.follow [] path.steps

def endsWithSlash (path : Path) : Bool := path.toList.getLast? == some '/'

/-- Whether the last step of a path is a dot. -/
def endsWithDot (path : Path) : Bool :=
  match path.toList.reverse.dropWhile (· == '/') with
  | '.' :: '/' :: _ => true
  | _ => false

def look (v : Volume) : Disk := fun path =>
  match v.place path with
  | .error e => .missing e
  | .ok names =>
    match v.file? names with
    | some data => if endsWithSlash path || endsWithDot path then .missing .notFolder else .file data
    | none =>
      if v.isFolder names then
        .folder ((v.files.filter fun f => names.isPrefixOf f.1).map fun f => f.1.drop names.length)
      else
        .missing .notFound

def putInto (names : List String) (data : List UInt8) :
    List (List String × List UInt8) → List (List String × List UInt8)
  | [] => [(names, data)]
  | (n, d) :: rest => if n = names then (n, data) :: rest else (n, d) :: putInto names data rest

/-- The volume with a file written at a path. -/
def write (v : Volume) (path : Path) (data : List UInt8) : Except SystemError Volume :=
  match v.place path with
  | .error e => .error e
  | .ok names =>
    if v.isFolder names then .error .isFolder
    else if endsWithDot path then .error (if (v.file? names).isSome then .notFolder else .notFound)
    else if endsWithSlash path then .error (if (v.file? names).isSome then .notFolder else .isFolder)
    else .ok ⟨putInto names data v.files⟩

end Volume

end CrossAssembler
