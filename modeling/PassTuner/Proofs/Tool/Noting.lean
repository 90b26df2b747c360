import PassTuner.Program.Basic
import PassTuner.Proofs.Tool.Logging

/-!
# Calls and what came of them

A toolchain that notes keeps every call together with its answer. From the notes alone it can be
told what a program should have counted: the calls themselves, and how many measurements had to be
repeated. The calls of the profiler come in runs, all of whose outputs but the last are transient
failures; a run is settled if it ends in an output, and broken off if it ends in an error.
-/

namespace PassTuner

variable {σ : Type}

/-- A call of a tool and its answer. -/
structure Note where
  call : ToolCall
  answer : Except ToolError ToolOutput

/-- A memory with notes. -/
structure Noted (σ : Type) where
  inner : σ
  notes : List Note := []

/-- Makes a call and notes what came of it. -/
def Tool.noting (call : ToolCall) (t : Tool σ ToolOutput) : Tool (Noted σ) ToolOutput := fun w =>
  match t ⟨w.disk, w.clock, w.tools.inner⟩ with
  | .ok o v => .ok o ⟨v.disk, v.clock, v.tools, w.tools.notes ++ [⟨call, .ok o⟩]⟩
  | .error e v => .error e ⟨v.disk, v.clock, v.tools, w.tools.notes ++ [⟨call, .error e⟩]⟩

/-- A toolchain all of whose calls are noted. -/
def Toolchain.noted (tc : Toolchain σ) : Toolchain (Noted σ) where
  compile ir object := Tool.noting (.compile ir object) (tc.compile ir object)
  link object executable := Tool.noting (.link object executable) (tc.link object executable)
  transform flag input output :=
    Tool.noting (.transform flag input output) (tc.transform flag input output)
  measure executable := Tool.noting (.measure executable) (tc.measure executable)
  describe := Tool.noting .describe tc.describe
  transient := tc.transient
  marker := tc.marker
  patience := tc.patience

/-- What an entry is to the run of measurements that is going on. -/
inductive Turn where
  /-- A measurement that failed transiently. -/
  | repeated
  /-- A measurement whose output ends the run. -/
  | settled
  /-- A measurement without an output. -/
  | broken
  /-- No measurement at all. -/
  | none
  deriving DecidableEq

namespace Note

def isTransform (n : Note) : Bool :=
  match n.call with
  | .transform .. => true
  | _ => false

def isCompile (n : Note) : Bool :=
  match n.call with
  | .compile .. => true
  | _ => false

def isMeasure (n : Note) : Bool :=
  match n.call with
  | .measure _ => true
  | _ => false

def turn (policy : TransientPolicy) (n : Note) : Turn :=
  match n.call, n.answer with
  | .measure _, .ok o => if policy.isTransient o then .repeated else .settled
  | .measure _, .error _ => .broken
  | _, _ => .none

/-- A call of the profiler whose output is a transient failure. -/
def isTransient (policy : TransientPolicy) (n : Note) : Bool := n.turn policy = .repeated

variable {policy : TransientPolicy} {n : Note} {l l' : List Note}

theorem turn_measure_ok (executable : String) (o : ToolOutput) :
    turn policy ⟨.measure executable, .ok o⟩ =
      if policy.isTransient o then .repeated else .settled := rfl

theorem isMeasure_eq (policy : TransientPolicy) (n : Note) :
    n.isMeasure = decide (n.turn policy ≠ .none) := by
  obtain ⟨call, answer⟩ := n
  cases call <;> try rfl
  cases answer with
  | error e => rfl
  | ok o => cases h : policy.isTransient o <;> simp [isMeasure, turn, h]

/-- No call of the profiler was without an output. -/
def AllAnswered (l : List Note) : Prop := ∀ n ∈ l, n.isMeasure → ∃ o, n.answer = .ok o

theorem turn_eq_broken : n.turn policy = .broken ↔ n.isMeasure ∧ ¬∃ o, n.answer = .ok o := by
  obtain ⟨call, answer⟩ := n
  cases call <;> try simp [turn, isMeasure]
  cases answer with
  | error e => simp
  | ok o => cases h : policy.isTransient o <;> simp [h]

theorem allAnswered_iff (policy : TransientPolicy) :
    AllAnswered l ↔ ∀ n ∈ l, n.turn policy ≠ .broken := by
  refine forall₂_congr fun n _ => ?_
  rw [ne_eq, turn_eq_broken, not_and, Classical.not_not]

/-! ## Runs of measurements -/

/-- The length of the run that is going on after the notes, for that of the run before them. -/
def pending (policy : TransientPolicy) : Nat → List Note → Nat
  | k, [] => k
  | k, n :: l =>
    match n.turn policy with
    | .repeated => pending policy (k + 1) l
    | .settled => pending policy 0 l
    | .broken => pending policy 0 l
    | .none => pending policy k l

/-- The calls in runs that were settled, the first of which has begun already. -/
def settled (policy : TransientPolicy) : Nat → List Note → Nat
  | _, [] => 0
  | k, n :: l =>
    match n.turn policy with
    | .repeated => settled policy (k + 1) l
    | .settled => k + 1 + settled policy 0 l
    | .broken => settled policy 0 l
    | .none => settled policy k l

/-- The calls among them that had to be repeated. -/
def repeated (policy : TransientPolicy) : Nat → List Note → Nat
  | _, [] => 0
  | k, n :: l =>
    match n.turn policy with
    | .repeated => repeated policy (k + 1) l
    | .settled => k + repeated policy 0 l
    | .broken => repeated policy 0 l
    | .none => repeated policy k l

theorem pending_append (k : Nat) (l l' : List Note) :
    pending policy k (l ++ l') = pending policy (pending policy k l) l' := by
  induction l generalizing k with
  | nil => rfl
  | cons n l ih => cases h : n.turn policy <;> simp only [List.cons_append, pending, h, ih]

theorem settled_append (k : Nat) (l l' : List Note) : settled policy k (l ++ l') =
    settled policy k l + settled policy (pending policy k l) l' := by
  induction l generalizing k with
  | nil => simp [settled, pending]
  | cons n l ih =>
    cases h : n.turn policy <;>
      simp only [List.cons_append, settled, pending, h, ih, Nat.add_assoc]

theorem repeated_append (k : Nat) (l l' : List Note) : repeated policy k (l ++ l') =
    repeated policy k l + repeated policy (pending policy k l) l' := by
  induction l generalizing k with
  | nil => simp [repeated, pending]
  | cons n l ih =>
    cases h : n.turn policy <;>
      simp only [List.cons_append, repeated, pending, h, ih, Nat.add_assoc]

/-- What was settled and what is going on are calls of the profiler, and they are all of these just
when none of them was without an output. -/
theorem settled_add_pending (k : Nat) (l : List Note) :
    settled policy k l + pending policy k l ≤ k + l.countP isMeasure ∧
      (settled policy k l + pending policy k l = k + l.countP isMeasure ↔ AllAnswered l) := by
  simp only [allAnswered_iff policy]
  induction l generalizing k with
  | nil => simp [settled, pending]
  | cons n l ih =>
    rw [List.countP_cons, isMeasure_eq policy, List.forall_mem_cons]
    cases h : n.turn policy with
    | repeated =>
      obtain ⟨le, iff⟩ := ih (k + 1)
      simp only [settled, pending, h]
      simp only [ne_eq, reduceCtorEq, not_false_eq_true, decide_true, if_true, true_and, ← iff]
      omega
    | settled =>
      obtain ⟨le, iff⟩ := ih 0
      simp only [settled, pending, h]
      simp only [ne_eq, reduceCtorEq, not_false_eq_true, decide_true, if_true, true_and, ← iff]
      omega
    | broken =>
      obtain ⟨le, -⟩ := ih 0
      simp only [settled, pending, h]
      simp only [ne_eq, reduceCtorEq, not_false_eq_true, decide_true, if_true, not_true_eq_false,
        false_and, iff_false]
      omega
    | none =>
      obtain ⟨le, iff⟩ := ih k
      simp only [settled, pending, h]
      simp only [ne_eq, reduceCtorEq, not_true_eq_false, not_false_eq_true, decide_false,
        Bool.false_eq_true, if_false, true_and, ← iff]
      omega

theorem repeated_add_pending (k : Nat) (l : List Note) :
    repeated policy k l + pending policy k l ≤ k + l.countP (isTransient policy) ∧
      (AllAnswered l →
        repeated policy k l + pending policy k l = k + l.countP (isTransient policy)) := by
  simp only [allAnswered_iff policy]
  induction l generalizing k with
  | nil => simp [repeated, pending]
  | cons n l ih =>
    rw [List.countP_cons, isTransient, List.forall_mem_cons]
    cases h : n.turn policy with
    | repeated =>
      obtain ⟨le, eq⟩ := ih (k + 1)
      simp only [repeated, pending, h, decide_true, if_true]
      exact ⟨by omega, fun hl => by have := eq hl.2; omega⟩
    | settled =>
      obtain ⟨le, eq⟩ := ih 0
      simp only [repeated, pending, h, reduceCtorEq, decide_false, Bool.false_eq_true, if_false]
      exact ⟨by omega, fun hl => by have := eq hl.2; omega⟩
    | broken =>
      obtain ⟨le, -⟩ := ih 0
      simp only [repeated, pending, h, reduceCtorEq, decide_false, Bool.false_eq_true, if_false]
      exact ⟨by omega, fun hl => absurd rfl hl.1⟩
    | none =>
      obtain ⟨le, eq⟩ := ih k
      simp only [repeated, pending, h, reduceCtorEq, decide_false, Bool.false_eq_true, if_false]
      exact ⟨by omega, fun hl => eq hl.2⟩

end Note

end PassTuner
