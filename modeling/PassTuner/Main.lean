import PassTuner.CommandLine.Run

/-!
# The program

Takes the tree below the working directory as the disk of a run, and afterwards makes the tree what
the run made of that disk. Files elsewhere are not seen.
-/

namespace PassTuner.CommandLine

/-- The path of a place. -/
def pathOfPlace (p : Place) : String := "/" ++ "/".intercalate p.reverse

/-- Everything below a place, outer directories first. -/
partial def loadTree (p : Place) : IO (List (Place × Node)) := do
  let entries ← (← IO.FS.realPath (pathOfPlace p)).readDir
  let mut nodes := []
  for entry in entries do
    let q := entry.fileName :: p
    if ← entry.path.isDir then nodes := nodes ++ (q, .directory) :: (← loadTree q)
    else nodes := nodes ++ [(q, .file (← IO.FS.readBinFile (pathOfPlace q)))]
  return nodes

/-- The directories that a place lies in, and the place itself. -/
def ancestors : Place → List (Place × Node)
  | [] => []
  | name :: p => ancestors p ++ [(name :: p, .directory)]

def loadDisk : IO Disk := do
  let home := (Path.names (toString (← IO.currentDir))).reverse
  return { nodes := ancestors home ++ (← loadTree home), home }

/-- Makes the tree what one disk is, where it is not already so from another. -/
def storeDisk (before after : Disk) : IO Unit := do
  for (p, node) in before.nodes.reverse do
    if (after.get? p).isNone then
      match node with
      | .file _ => IO.FS.removeFile (pathOfPlace p)
      | .directory => IO.FS.removeDir (pathOfPlace p)
  for (p, node) in after.nodes do
    match node, before.get? p with
    | .directory, some .directory => pure ()
    | .directory, _ => IO.FS.createDirAll (pathOfPlace p)
    | .file content, some (.file old) =>
      if content.toList ≠ old.toList then IO.FS.writeBinFile (pathOfPlace p) content
    | .file content, _ => IO.FS.writeBinFile (pathOfPlace p) content

end PassTuner.CommandLine

open PassTuner CommandLine in
def main (arguments : List String) : IO UInt32 := do
  let disk ← loadDisk
  let (outcome, world) := run arguments { disk, clock := ← IO.monoNanosNow, tools := () }
  storeDisk disk world.disk
  IO.print outcome.output
  IO.eprint outcome.errors
  return UInt32.ofNat outcome.code
