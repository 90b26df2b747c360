import PassTuner.Disk.Basic

/-!
# Access by path

A path is followed name by name, and every name but the last must be a directory. What it leads to
is there already, or is a free name in a directory that is there. Reading, writing and making
directories are defined by that alone. None of them changes the disk when it fails, except that a
chain of directories is made from the outside in.
-/

namespace PassTuner

/-- Where a path leads. -/
inductive Target where
  | present (place : Place) (node : Node)
  | vacant (place : Place)

namespace Disk

/-- Longest name of a file, in bytes. -/
def longestName : Nat := 255

/-- Longest path, in bytes. -/
def longestPath : Nat := 4095

/-- Follows names from a directory. -/
def follow (d : Disk) : Place → List String → Except DiskError Target
  | p, [] => .ok (.present p .directory)
  | p, name :: rest =>
    if name = "." then follow d p rest
    else if name = ".." then follow d p.tail rest
    else if longestName < name.utf8ByteSize then .error .nameTooLong
    else match d.get? (name :: p), rest with
      | some .directory, rest => follow d (name :: p) rest
      | some (.file content), [] => .ok (.present (name :: p) (.file content))
      | some (.file _), _ :: _ => .error .notDirectory
      | none, [] => .ok (.vacant (name :: p))
      | none, _ :: _ => .error .notFound

/-- Where a path leads from the home directory. A path that ends in a slash leads to no file. -/
def locate (d : Disk) (path : String) : Except DiskError Target :=
  if path.toList.contains '\x00' then .error .invalidPath
  else if path = "" then .error .notFound
  else if longestPath < path.utf8ByteSize then .error .nameTooLong
  else match d.follow (if Path.isAbsolute path then [] else d.home) (Path.names path) with
    | .ok (.present p (.file content)) =>
      if Path.endsInSlash path then .error .notDirectory else .ok (.present p (.file content))
    | other => other

/-- The node a path leads to. -/
def node? (d : Disk) (path : String) : Except DiskError Node :=
  match d.locate path with
  | .error e => .error e
  | .ok (.vacant _) => .error .notFound
  | .ok (.present _ node) => .ok node

def isFile (d : Disk) (path : String) : Bool :=
  match d.node? path with
  | .ok (.file _) => true
  | _ => false

def isDirectory (d : Disk) (path : String) : Bool :=
  match d.node? path with
  | .ok .directory => true
  | _ => false

def read (d : Disk) (path : String) : Except DiskError ByteArray :=
  match d.node? path with
  | .error e => .error e
  | .ok .directory => .error .isDirectory
  | .ok (.file content) => .ok content

def readText (d : Disk) (path : String) : Except DiskError String :=
  match d.read path with
  | .error e => .error e
  | .ok content =>
    match String.fromUTF8? content with
    | some text => .ok text
    | none => .error .notText

/-- The disk with a file of the given content, made or replaced. -/
def write (d : Disk) (path : String) (content : ByteArray) : Except DiskError Disk :=
  match d.locate path with
  | .error e => .error e
  | .ok (.present _ .directory) => .error .isDirectory
  | .ok (.present p (.file _)) => .ok (d.put p (.file content))
  | .ok (.vacant p) =>
    if Path.endsInSlash path then .error .isDirectory else .ok (d.put p (.file content))

def writeText (d : Disk) (path text : String) : Except DiskError Disk := d.write path text.toUTF8

/-- The disk with one more directory. -/
def makeDirectory (d : Disk) (path : String) : Except DiskError Disk :=
  match d.locate path with
  | .error .notDirectory =>
    if d.isFile (String.ofList (Path.trimReversed path.toList.reverse).reverse) then .error .exists
    else .error .notDirectory
  | .error e => .error e
  | .ok (.present _ _) => .error .exists
  | .ok (.vacant p) => .ok (d.put p .directory)

/-- The ways from a path outward that have to be made: those whose parent is missing, and the one
behind them unless it is a directory already. -/
def missing (d : Disk) : Nat → String → Except DiskError (List String)
  | 0, _ => .ok []
  | fuel + 1, path =>
    match Path.parent? path with
    | none => .ok []
    | some parent =>
      match d.makeDirectory path with
      | .ok _ => .ok [path]
      | .error .notFound => (d.missing fuel parent).map (path :: ·)
      | .error .exists => if d.isDirectory path then .ok [] else .error .exists
      | .error e => .error e

/-- Makes directories one after another; one that is there already is as good. -/
def makeEach (d : Disk) : List String → Except DiskError Disk
  | [] => .ok d
  | path :: rest =>
    match d.makeDirectory path with
    | .ok d => makeEach d rest
    | .error e => if d.isDirectory path then makeEach d rest else .error e

/-- The disk with a directory at a path and all that it takes on the way there. -/
def makeDirectories (d : Disk) (path : String) : Except DiskError Disk :=
  match d.missing (path.length + 1) path with
  | .error e => .error e
  | .ok paths => d.makeEach paths.reverse

/-- The names in the directory at a path. -/
def list (d : Disk) (path : String) : Except DiskError (List String) :=
  match d.locate path with
  | .error e => .error e
  | .ok (.vacant _) => .error .notFound
  | .ok (.present _ (.file _)) => .error .notDirectory
  | .ok (.present p .directory) => .ok (d.children p)

/-- The disk without the file or tree at a path. -/
def remove (d : Disk) (path : String) : Disk :=
  match d.locate path with
  | .ok (.present p _) => d.erase p
  | _ => d

/-- A name of the form `start0`, `start1`, … that is free in a directory and is not the one that is
kept for something else. -/
def freeName (d : Disk) (directory start kept : String) : String :=
  let candidates := ((List.range (d.nodes.length + 2)).map fun n => s!"{start}{n}").erase kept
  (candidates.find? fun name =>
    match d.locate (Path.join directory name) with
    | .ok (.present _ _) => false
    | _ => true).getD start

end Disk

end PassTuner
