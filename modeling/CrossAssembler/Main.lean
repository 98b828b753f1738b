import CrossAssembler.Command.Plan

/-!
# The command line

A command is worked out on what has been seen of the disk so far. As long as it looks at paths that have
not been seen, they are read and it is worked out again; then it is carried out.
-/

namespace CrossAssembler

abbrev Snapshot := Std.TreeMap Path DiskEntry

/-- A disk with what has been seen and nothing else. -/
def Snapshot.disk (s : Snapshot) : Disk := fun path => s.getD path (.missing .notFound)

def systemError : IO.Error → SystemError
  | .noFileOrDirectory .. => .notFound
  | .inappropriateType _ code _ => if code = 21 then .isFolder else .notFolder
  | .invalidArgument _ code _ => if code = 22 then .nulInName else .tooLong
  | e => .other (toString e)

/-- The files below a folder at any depth, each as the names that lead to it. -/
partial def filesBelow (folder : Path) : IO (List (List String)) := do
  let mut found := []
  for entry in ← (← IO.FS.realPath folder).readDir do
    match (← entry.path.symlinkMetadata).type with
    | .file => found := [entry.fileName] :: found
    | .dir => found := (← filesBelow entry.path.toString).map (entry.fileName :: ·) ++ found
    | _ => pure ()
  return found

def lookAt (path : Path) : IO DiskEntry := do
  try
    return .file (← IO.FS.readBinFile path).toList
  catch e =>
    match systemError e with
    | .isFolder => return .folder (← filesBelow path)
    | error => return .missing error

/-- Works out a request, reading what it looks at. -/
partial def settle (request : Request) (seen : Snapshot) : IO Plan := do
  let plan := request.plan seen.disk
  let unseen := (request.paths seen.disk ++ plan.lookups).filter fun path => !seen.contains path
  if unseen.isEmpty then
    return plan
  let mut seen := seen
  for path in unseen do
    seen := seen.insert path (← lookAt path)
  settle request seen

def perform (plan : Plan) : IO Plan := do
  match plan.failure, plan.write with
  | none, some (path, data) =>
    try
      IO.FS.writeBinFile path ⟨data.toArray⟩
      return plan
    catch e => return plan.unwritten path (systemError e)
  | _, _ => return plan

def carryOut (request : Request) : IO UInt32 := do
  let plan ← perform (← settle request ∅)
  for line in plan.remarks do
    IO.eprintln line
  match plan.failure with
  | some failure =>
    IO.eprintln failure.message
    return 1
  | none =>
    for line in plan.output do
      IO.println line
    return 0

end CrossAssembler

def main (arguments : List String) : IO UInt32 := do
  match CrossAssembler.Request.read? arguments with
  | some request => CrossAssembler.carryOut request
  | none =>
    for line in CrossAssembler.usage do
      IO.eprintln line
    return 2
