import CrossAssembler.Files.Entry

/-!
# Files in memory

* `FileTree.entry` — what stands at a path.
* `FileTree.below` — the files in a folder, at any depth.
-/

namespace CrossAssembler

/-- Files with their contents, in the order of their paths. -/
structure FileTree where
  files : List (Path × List UInt8)
  deriving DecidableEq, Repr

namespace FileTree

def empty : FileTree := ⟨[]⟩

/-- Puts a file into an ordered list of files, in the place of one at the same path. -/
def insertInto (path : Path) (data : List UInt8) : List (Path × List UInt8) → List (Path × List UInt8)
  | [] => [(path, data)]
  | (p, d) :: rest =>
    match path.compare p with
    | .lt => (path, data) :: (p, d) :: rest
    | .eq => (p, data) :: rest
    | .gt => (p, d) :: insertInto path data rest

def insert (t : FileTree) (path : Path) (data : List UInt8) : FileTree := ⟨insertInto path data t.files⟩

def ofList (files : List (Path × List UInt8)) : FileTree :=
  files.foldl (fun t f => t.insert f.1 f.2) empty

def file? (t : FileTree) (path : Path) : Option (List UInt8) :=
  (t.files.find? fun f => f.1.same path).map fun f => f.2

/-- What stands at a path. A folder is what files are in. -/
def entry (t : FileTree) : Files := fun path =>
  match t.file? path with
  | some data => .file data
  | none => if t.files.any fun f => f.1.isWithin path then .folder else .missing

/-- The paths of the files in a folder, at any depth. -/
def below (t : FileTree) (folder : Path) : List Path :=
  (t.files.map fun f => f.1).filter fun p => p.isWithin folder && !p.same folder

end FileTree

end CrossAssembler
