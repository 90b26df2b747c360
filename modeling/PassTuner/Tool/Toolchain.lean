import PassTuner.Disk.Access
import PassTuner.Tool.Output

/-!
# Toolchains

A toolchain is five operations on a world: a disk, a clock, and whatever the tools themselves
remember. An operation ends in an output, also when the tool failed, or in an error if there was no
output at all; in both cases the world is what it became. Nothing else is known of a toolchain, so
what is stated for every toolchain holds whatever the tools do.
-/

namespace PassTuner

/-- What operations act on. -/
structure World (σ : Type) where
  disk : Disk
  /-- Nanoseconds. -/
  clock : Nat
  tools : σ

/-- Why a tool left no output. -/
inductive ToolError where
  | spawn (program : String) (cause : DiskError)
  | file (path : String) (cause : DiskError)
  deriving DecidableEq, Repr

def ToolError.message : ToolError → String
  | .spawn program cause => s!"failed to spawn '{program}': {cause.message}"
  | .file path cause => s!"I/O error on {path}: {cause.message}"

/-- An operation of a tool. -/
abbrev Tool (σ : Type) (α : Type) := EStateM ToolError (World σ) α

structure Toolchain (σ : Type) where
  /-- From the code of a program to an object. -/
  compile : (ir object : String) → Tool σ ToolOutput
  /-- From an object to an executable. -/
  link : (object executable : String) → Tool σ ToolOutput
  /-- From code to code, by one pass. -/
  transform : (flag input output : String) → Tool σ ToolOutput
  /-- Runs an executable under the profiler. -/
  measure : (executable : String) → Tool σ ToolOutput
  /-- The optimizer's help text. -/
  describe : Tool σ ToolOutput
  transient : TransientPolicy
  /-- What stands around a measurement record. -/
  marker : String := "SYMVEC"
  /-- Attempts after which a measurement that keeps failing transiently counts as stalled. -/
  patience : Nat := 100000

namespace Tool

def readText (path : String) : Tool σ String := fun w =>
  match w.disk.readText path with
  | .ok text => .ok text w
  | .error e => .error (.file path e) w

def read (path : String) : Tool σ ByteArray := fun w =>
  match w.disk.read path with
  | .ok content => .ok content w
  | .error e => .error (.file path e) w

def write (path : String) (content : ByteArray) : Tool σ Unit := fun w =>
  match w.disk.write path content with
  | .ok disk => .ok () { w with disk }
  | .error e => .error (.file path e) w

/-- An operation of tools whose memory is a part of a larger one. -/
def within (part : σ → τ) (replace : σ → τ → σ) (t : Tool τ α) : Tool σ α := fun w =>
  match t ⟨w.disk, w.clock, part w.tools⟩ with
  | .ok a v => .ok a ⟨v.disk, v.clock, replace w.tools v.tools⟩
  | .error e v => .error e ⟨v.disk, v.clock, replace w.tools v.tools⟩

end Tool

/-- How often each operation was called. -/
structure Calls where
  transforms : Nat := 0
  compiles : Nat := 0
  links : Nat := 0
  measures : Nat := 0
  describes : Nat := 0
  deriving DecidableEq, Repr

/-- A memory with a count of the calls. -/
structure Counted (σ : Type) where
  inner : σ
  calls : Calls := {}

/-- Counts a call and makes it. -/
def Tool.counting (count : Calls → Calls) (t : Tool σ α) : Tool (Counted σ) α := do
  modify fun w => { w with tools := { w.tools with calls := count w.tools.calls } }
  t.within Counted.inner fun c inner => { c with inner }

/-- A toolchain whose calls are counted, those that fail among them. -/
def Toolchain.counted (t : Toolchain σ) : Toolchain (Counted σ) where
  compile ir object :=
    Tool.counting (fun c => { c with compiles := c.compiles + 1 }) (t.compile ir object)
  link object executable :=
    Tool.counting (fun c => { c with links := c.links + 1 }) (t.link object executable)
  transform flag input output :=
    Tool.counting (fun c => { c with transforms := c.transforms + 1 })
      (t.transform flag input output)
  measure executable :=
    Tool.counting (fun c => { c with measures := c.measures + 1 }) (t.measure executable)
  describe := Tool.counting (fun c => { c with describes := c.describes + 1 }) t.describe
  transient := t.transient
  marker := t.marker
  patience := t.patience

end PassTuner
