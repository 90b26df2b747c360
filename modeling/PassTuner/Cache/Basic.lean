import PassTuner.Cache.Manifest
import PassTuner.Digest.Blake3
import PassTuner.Environment.Error

/-!
# The cache of a program's variants

Every variant that was built is in the manifest with digests of its code and its executable. A
look-up hits when both are there and unchanged. An artifact that is gone makes the look-up a miss,
so that the variant is built again; one that cannot be read or was altered is corruption, never a
hit. When the source is not the one that the manifest was written for, the manifest starts over.
-/

namespace PassTuner

/-- Where the artifacts of a variant are. -/
structure Artifacts where
  ir : String
  executable : String
  deriving DecidableEq, Repr

structure Cache where
  directory : String
  stem : String
  source : String
  manifest : Manifest
  deriving DecidableEq, Repr

namespace Cache

def manifestPath (directory : String) : String := Path.join directory "manifest.json"

def digestFile (d : Disk) (path : String) : Except DiskError String :=
  (d.read path).map Digest.ofBytes

/-- The manifest in a directory, if it is about the source with the given digest. -/
def currentManifest (d : Disk) (directory sourceDigest : String) :
    Except EnvironmentError Manifest :=
  let path := manifestPath directory
  match d.readText path with
  | .error .notFound => .ok (.empty sourceDigest)
  | .error e => .error (.cacheCorrupted path (.unreadable e))
  | .ok text =>
    match Json.parseAs Manifest.ofJson? text with
    | .error e => .error (.cacheCorrupted path (.malformed e))
    | .ok m => .ok (if m.sourceDigest = sourceDigest then m else .empty sourceDigest)

/-- Opens the cache of a source, in a directory that is made if need be. -/
def «open» (directory stem source : String) : Environment σ Cache := do
  Environment.changing directory (·.makeDirectories directory)
  let d := (← get).disk
  match digestFile d source with
  | .error e => throw (.invalidSource source (.unreadable e))
  | .ok digest =>
    let manifest ← Environment.ofExcept (currentManifest d directory digest)
    return { directory, stem, source, manifest }

/-- Where the artifacts of a variant belong, built or not. -/
def artifacts (c : Cache) (v : Variant) : Artifacts where
  ir := match v.irName? c.stem with
    | some name => Path.join c.directory name
    | none => c.source
  executable := Path.join c.directory (v.executableName c.stem)

/-- Number of variants in the manifest. -/
def size (c : Cache) : Nat := c.manifest.size

def isEmpty (c : Cache) : Bool := c.manifest.entries.isEmpty

/-- Whether a file is there and has the digest it should have; another digest is corruption. -/
def verify (d : Disk) (path digest : String) : Except EnvironmentError Bool :=
  match d.read path with
  | .error .notFound => .ok false
  | .error e => .error (.cacheCorrupted path (.unreadable e))
  | .ok content =>
    if Digest.ofBytes content = digest then .ok true else .error (.cacheCorrupted path .altered)

/-- The verified artifacts of a variant, if it was built and they are still there. The code is
judged before the executable. -/
def lookup (c : Cache) (d : Disk) (v : Variant) : Except EnvironmentError (Option Artifacts) :=
  match c.manifest.get? v.encode with
  | none => .ok none
  | some digests =>
    let a := c.artifacts v
    match verify d a.ir digests.ir with
    | .error e => .error e
    | .ok false => .ok none
    | .ok true =>
      match verify d a.executable digests.executable with
      | .error e => .error e
      | .ok false => .ok none
      | .ok true => .ok (some a)

/-- The cache with the artifacts of a variant entered as they are on the disk. -/
def enter (c : Cache) (d : Disk) (v : Variant) : Except EnvironmentError Cache :=
  let a := c.artifacts v
  match digestFile d a.ir with
  | .error e => .error (.cacheCorrupted a.ir (.unreadable e))
  | .ok ir =>
    match digestFile d a.executable with
    | .error e => .error (.cacheCorrupted a.executable (.unreadable e))
    | .ok executable => .ok { c with manifest := c.manifest.insert v.encode ⟨ir, executable⟩ }

/-- The disk with the manifest written. -/
def save (c : Cache) (d : Disk) : Except EnvironmentError Disk :=
  let path := manifestPath c.directory
  match d.writeText path c.manifest.toJson.indented with
  | .ok d => .ok d
  | .error e => .error (.file path e)

/-- Enters a variant and writes the manifest. The entry stays when only the writing fails. -/
def record (c : Cache) (d : Disk) (v : Variant) : Except EnvironmentError Unit × Cache × Disk :=
  match c.enter d v with
  | .error e => (.error e, c, d)
  | .ok c =>
    match c.save d with
    | .error e => (.error e, c, d)
    | .ok d => (.ok (), c, d)

end Cache

end PassTuner
