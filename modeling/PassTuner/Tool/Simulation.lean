import PassTuner.Tool.Toolchain
import PassTuner.Text.Lines
import PassTuner.Number.Notation
import PassTuner.Number.Literal

/-!
# A simulated toolchain

Works on the files of a disk without running anything. Code is text whose lines say how the program
behaves: `; cost 10.0` is what the base costs, `; factor --licm 0.25` what one pass multiplies that
by, `; fail-build` makes compiling fail. Transforming adds a line `; applied <flag>`; measuring
multiplies the cost by the factor of every applied pass, the program's own factor before the
toolchain's, and one for a pass that has neither.
-/

namespace PassTuner

structure Simulation where
  /-- The passes of the help text. -/
  flags : List String
  /-- What passes multiply the cost of every program by; the last entry of a pass counts. -/
  factors : List (String × Float)
  /-- Passes that do not transform. -/
  failingFlags : List String
  /-- Passes that make the executable crash. -/
  failingMeasurements : List String

namespace Simulation

/-- What a line says, comment mark aside. -/
inductive Remark where
  | cost (value : List Char)
  | factor (flag value : List Char)
  | applied (flag : List Char)
  | other

def remark (line : List Char) : Remark :=
  match Text.fields (line.dropWhile (· == ';')) with
  | [word, value] =>
    if word = "cost".toList then .cost value
    else if word = "applied".toList then .applied value
    else .other
  | [word, flag, value] => if word = "factor".toList then .factor flag value else .other
  | _ => .other

/-- What the lines of a program say: its cost, its own factors, later ones in front, and the passes
applied to it. -/
structure Behaviour where
  base : Option Float := none
  factors : List (List Char × Float) := []
  applied : List (List Char) := []

/-- Why a program has no cost. -/
inductive CostFault where
  | notANumber
  | missing
  deriving DecidableEq, Repr

def CostFault.message : CostFault → String
  | .notANumber => "invalid float literal"
  | .missing => "no '; cost' line"

def Behaviour.note (b : Behaviour) : Remark → Except CostFault Behaviour
  | .cost value =>
    match parseFloat? value with
    | some x => .ok { b with base := some x }
    | none => .error .notANumber
  | .factor flag value =>
    match parseFloat? value with
    | some x => .ok { b with factors := (flag, x) :: b.factors }
    | none => .error .notANumber
  | .applied flag => .ok { b with applied := b.applied ++ [flag] }
  | .other => .ok b

def behaviour (code : List Char) : Except CostFault Behaviour :=
  (Text.lines code).foldlM (fun b line => b.note (remark line)) {}

/-- The factor of a pass for a program. -/
def factor (s : Simulation) (b : Behaviour) (flag : List Char) : Float :=
  match b.factors.lookup flag with
  | some x => x
  | none => (s.factors.reverse.lookup (String.ofList flag)).getD 1

def cost (s : Simulation) (code : List Char) : Except CostFault Float := do
  let b ← behaviour code
  match b.base with
  | none => throw .missing
  | some base => return b.applied.foldl (fun cost flag => cost * s.factor b flag) base

/-- The passes on lines of the very form that transforming writes. -/
def appliedLines (code : List Char) : List String :=
  (Text.lines code).filterMap fun line =>
    (Text.stripStart? "; applied ".toList line).map String.ofList

/-- Code with one more pass applied. -/
def applyPass (flag code : String) : String :=
  (if code = "" ∨ code.toList.getLast? = some '\n' then code else code ++ "\n") ++
    s!"; applied {flag}\n"

def failsToBuild (code : List Char) : Bool :=
  (Text.lines code).any fun line => Text.trim line == "; fail-build".toList

/-- What measuring a program prints. -/
def measurement (s : Simulation) (code : String) : ToolOutput :=
  let applied := appliedLines code.toList
  if applied.any (· ∈ s.failingMeasurements) then .exited 139 "" "Segmentation fault"
  else match s.cost code.toList with
    | .error fault => .exited 2 "" fault.message
    | .ok cost =>
      .exited 0 "" s!"SYMVEC{applied.length} {code.utf8ByteSize} {floatText cost} 0SYMVEC"

/-- One line of the help text. -/
def listingLine (flag : String) : String :=
  let gap := String.ofList (List.replicate (30 - flag.length) ' ')
  s!"      {flag}{gap} - scripted pass\n"

def listing (s : Simulation) : String :=
  "OVERVIEW: scripted optimizer\n\nOPTIONS:\n  Optimizations available:\n" ++
    String.join (s.flags.map listingLine) ++
    "  Generic Options:\n      --help - Display available options\n"

/-- The toolchain. It remembers how many measurements are still to fail for want of memory. -/
def toolchain (s : Simulation) : Toolchain Nat where
  compile ir object := do
    let code ← Tool.readText ir
    if failsToBuild code.toList then return .exited 1 "" "scripted build failure"
    Tool.write object code.toUTF8
    return .ok ""
  link object executable := do
    let code ← Tool.readText object
    Tool.write executable code.toUTF8
    return .ok ""
  transform flag input output := do
    if flag ∈ s.failingFlags then return .exited 1 "" s!"opt: unknown pass {flag}"
    let code ← Tool.readText input
    Tool.write output (applyPass flag code).toUTF8
    return .ok ""
  measure executable := do
    match (← get).tools with
    | busy + 1 =>
      modify fun w => { w with tools := busy }
      return .exited 12 "" "time: cannot fork: Cannot allocate memory"
    | 0 => return s.measurement (← Tool.readText executable)
  describe := return .ok s.listing
  transient := { TransientPolicy.standard with retryDelay := 0 }

end Simulation

end PassTuner
