import PassTuner.Program.Basic

/-!
# Building variants

A variant is built by transforming the code of the lineage, unless the code is there already,
compiling it to an object in a scratch directory, linking, and entering the artifacts into the
cache. A variant that the cache holds is not built again.
-/

namespace PassTuner.Program

/-- The program's cache, written through to the disk. -/
def recordVariant (v : Variant) : Work σ Unit := fun b =>
  let (result, cache, disk) := b.program.cache.record b.world.disk v
  let b := { world := { b.world with disk }, program := { b.program with cache } }
  match result with
  | .ok () => .ok () b
  | .error e => .error e b

/-- Makes the code of a variant out of the lineage's. -/
def transformInto (tc : Toolchain σ) (v : Variant) (flag : String) : Work σ Unit := do
  let p ← Work.program
  Work.count fun s => { s with transforms := s.transforms + 1 }
  Work.demand (tc.transform flag (p.cache.artifacts p.lineage).ir (p.cache.artifacts v).ir)
    (.transformFailed p.name v flag)

/-- Compiles and links a variant by way of an object file, and enters it into the cache. -/
def assemble (tc : Toolchain σ) (v : Variant) (object : String) : Work σ Unit := do
  let p ← Work.program
  let a := p.cache.artifacts v
  Work.count fun s => { s with builds := s.builds + 1 }
  Work.demand (tc.compile a.ir object) (.buildFailed p.name v)
  Work.demand (tc.link object a.executable) (.buildFailed p.name v)
  recordVariant v

/-- Work with the path of a directory that is made for it and taken away afterwards. -/
def withScratch (work : String → Work σ α) : Work σ α := do
  let p ← Work.program
  let d ← Work.disk
  let path := Path.join p.cache.directory (d.freeName p.cache.directory ".obj" p.name)
  match d.makeDirectory path with
  | .error e => throw (.file p.cache.directory e)
  | .ok made =>
    Work.modifyDisk fun _ => made
    Work.cleaning (·.remove path) (work path)

/-- Builds a variant. With a flag its code is made out of the lineage's first; without one the code
has to be there. -/
def rebuild (tc : Toolchain σ) (v : Variant) (flag : Option String) : Work σ Artifacts := do
  let p ← Work.program
  let a := p.cache.artifacts v
  match flag with
  | some flag => transformInto tc v flag
  | none => if !(← Work.disk).isFile a.ir then throw (.cacheCorrupted a.ir .codeMissing)
  withScratch fun scratch => assemble tc v (Path.join scratch s!"{p.name}.o")
  return a

/-- The verified artifacts of a variant, which is built if the cache does not have it. -/
def ensureBuilt (tc : Toolchain σ) (v : Variant) (flag : Option String) : Work σ Artifacts := do
  let p ← Work.program
  match ← Work.ofExcept (p.cache.lookup (← Work.disk) v) with
  | some a =>
    Work.count fun s => { s with cacheHits := s.cacheHits + 1 }
    return a
  | none => rebuild tc v flag

/-- Sees to it that the lineage has an executable. -/
def build (tc : Toolchain σ) : Work σ Unit := do
  let p ← Work.program
  if p.stage = .unbuilt then
    let _ ← ensureBuilt tc p.lineage none
    Work.modifyProgram fun p => { p with stage := .built }

end PassTuner.Program
