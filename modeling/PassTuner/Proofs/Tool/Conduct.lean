import PassTuner.Proofs.Disk.Changes
import PassTuner.Proofs.Program.Work

/-!
# What is known of tools

A conduct says what calls of the tools may make of the contents of their inputs. A tidy toolchain
keeps to one: a call reads its input, changes its output at most, and has written it if it
succeeded. Nothing is said about a call whose input cannot be read or whose output cannot be
written, except that it does not succeed. What a variant's artifacts may be follows from the conduct
alone, flag by flag.
-/

namespace PassTuner

/-- Why a call did not do its work. -/
inductive CallFailure where
  | refused (output : ToolOutput) (failed : output.succeeded = false)
  | broken (cause : ToolError)

def CallFailure.report (refusal : ToolOutput → EnvironmentError) : CallFailure → EnvironmentError
  | .refused output _ => refusal output
  | .broken cause => .tool cause

/-- What calls may make of the content of their input. -/
abbrev Making := ByteArray → Except CallFailure ByteArray → Prop

structure Conduct where
  transform : String → Making
  compile : Making
  link : Making
  measure : ByteArray → Except ToolError ToolOutput → Prop

namespace Conduct

variable {C : Conduct} {flags : List String} {flag : String} {source code executable : ByteArray}

/-- Code that flags, in this order, may make of a source. -/
inductive Derived (C : Conduct) (source : ByteArray) : List String → ByteArray → Prop where
  | base : Derived C source [] source
  | step {flags : List String} {flag : String} {code made : ByteArray} :
      Derived C source flags code → C.transform flag code (.ok made) →
      Derived C source (flags ++ [flag]) made

/-- An executable that may be made of code. -/
def Assembled (C : Conduct) (code executable : ByteArray) : Prop :=
  ∃ object, C.compile code (.ok object) ∧ C.link object (.ok executable)

/-- How making an executable of code may fail. -/
def Unassembled (C : Conduct) (code : ByteArray) (failure : CallFailure) : Prop :=
  C.compile code (.error failure) ∨
    ∃ object, C.compile code (.ok object) ∧ C.link object (.error failure)

end Conduct

namespace Tool

variable {σ : Type} {w w' : World σ} {output : ToolOutput} {content : ByteArray} {p : Place}

/-- The world after a call, however it ended. -/
def after {α : Type} (t : Tool σ α) (w : World σ) : World σ :=
  match t w with
  | .ok _ w => w
  | .error _ w => w

/-- A call that keeps to what it may make of its input. -/
structure Keeps (making : Making) (call : (input output : String) → Tool σ ToolOutput) : Prop where
  changed : ∀ input output w,
    Disk.ChangedOnly (w.disk.Leads output) w.disk ((call input output).after w).disk
  made : ∀ {input output w o w'}, call input output w = .ok o w' → o.succeeded →
    ∃ content p made, w.disk.read input = .ok content ∧ w.disk.Leads output p ∧
      w'.disk.get? p = some (.file made) ∧ making content (.ok made)
  refused : ∀ {input output w o w' content p}, call input output w = .ok o w' →
    ∀ failed : o.succeeded = false, w.disk.read input = .ok content → w.disk.Leads output p →
    making content (.error (.refused o failed))
  broken : ∀ {input output w e w' content p}, call input output w = .error e w' →
    w.disk.read input = .ok content → w.disk.Leads output p → making content (.error (.broken e))

/-- A call that only looks at its input. -/
structure Watches (answer : ByteArray → Except ToolError ToolOutput → Prop)
    (call : String → Tool σ ToolOutput) : Prop where
  changed : ∀ input w, Disk.ChangedOnly (fun _ => False) w.disk ((call input).after w).disk
  answered : ∀ {input w o w' content}, call input w = .ok o w' →
    w.disk.read input = .ok content → answer content (.ok o)
  broken : ∀ {input w e w' content}, call input w = .error e w' →
    w.disk.read input = .ok content → answer content (.error e)

end Tool

/-- A toolchain that keeps to a conduct. -/
structure Toolchain.Tidy {σ : Type} (tc : Toolchain σ) (C : Conduct) : Prop where
  transform : ∀ flag, Tool.Keeps (C.transform flag) (tc.transform flag)
  compile : Tool.Keeps C.compile tc.compile
  link : Tool.Keeps C.link tc.link
  measure : Tool.Watches C.measure tc.measure

namespace Work

variable {σ : Type} {b b' : Bench σ} {e : EnvironmentError} {making : Making}
  {call : (input output : String) → Tool σ ToolOutput} {input output : String}
  {refusal : ToolOutput → EnvironmentError}

theorem demand_eq (t : Tool σ ToolOutput) (refusal : ToolOutput → EnvironmentError) (b : Bench σ) :
    demand t refusal b = match t b.world with
      | .error e w => .error (.tool e) { b with world := w }
      | .ok o w => if o.succeeded then .ok () { b with world := w }
        else .error (refusal o) { b with world := w } := by
  change EStateM.bind (ofTool t) _ b = _
  unfold EStateM.bind ofTool
  cases t b.world with
  | error e w => rfl
  | ok o w => cases hs : o.succeeded <;> simp [hs] <;> rfl

theorem demand_ok (hk : Tool.Keeps making call)
    (h : demand (call input output) refusal b = .ok () b') :
    b'.program = b.program ∧
    Disk.ChangedOnly (b.world.disk.Leads output) b.world.disk b'.world.disk ∧
    ∃ content p made, b.world.disk.read input = .ok content ∧ b.world.disk.Leads output p ∧
      b'.world.disk.get? p = some (.file made) ∧ making content (.ok made) := by
  have hchanged := hk.changed input output b.world
  unfold Tool.after at hchanged
  rw [demand_eq] at h
  cases ht : call input output b.world with
  | error e w =>
    simp only [ht] at h
    cases h
  | ok o w =>
    simp only [ht] at h hchanged
    cases hs : o.succeeded with
    | false => simp [hs] at h
    | true =>
      simp only [hs, if_true] at h
      cases h
      exact ⟨rfl, hchanged, hk.made ht hs⟩

theorem demand_error (hk : Tool.Keeps making call)
    (h : demand (call input output) refusal b = .error e b') :
    b'.program = b.program ∧
    Disk.ChangedOnly (b.world.disk.Leads output) b.world.disk b'.world.disk ∧
    ∀ content p, b.world.disk.read input = .ok content → b.world.disk.Leads output p →
      ∃ failure, making content (.error failure) ∧ e = failure.report refusal := by
  have hchanged := hk.changed input output b.world
  unfold Tool.after at hchanged
  rw [demand_eq] at h
  cases ht : call input output b.world with
  | error cause w =>
    simp only [ht] at h hchanged
    cases h
    exact ⟨rfl, hchanged, fun content p hr hl => ⟨.broken cause, hk.broken ht hr hl, rfl⟩⟩
  | ok o w =>
    simp only [ht] at h hchanged
    cases hs : o.succeeded with
    | true => simp [hs] at h
    | false =>
      simp only [hs, Bool.false_eq_true, if_false] at h
      cases h
      exact ⟨rfl, hchanged, fun content p hr hl => ⟨.refused o hs, hk.refused ht hs hr hl, rfl⟩⟩

end Work

end PassTuner
