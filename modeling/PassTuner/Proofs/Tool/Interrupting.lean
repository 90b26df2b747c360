import PassTuner.Tool.Toolchain

/-!
# Measurements that are interrupted

Interrupted tools do what other tools do, except that the profiler may first give some outputs of
its own where the others give one that is not a transient failure. A plan says which, and how long
each of them takes. The other tools do not notice: they work in a world in which no time was lost.
Because the attempts that are inserted are attempts like any others, the interrupted tools have so
much more patience.
-/

namespace PassTuner

variable {σ α : Type}

/-- An output that is given first. -/
structure Interruption where
  output : ToolOutput
  /-- Nanoseconds. -/
  duration : Nat

/-- The memory of tools with interruptions. -/
structure Interrupted (σ : Type) where
  inner : σ
  /-- The interruptions to come, before each of the outputs that are not transient failures. -/
  plan : List (List Interruption)
  /-- Nanoseconds. -/
  lost : Nat := 0
  delivered : Nat := 0

/-- The interruptions are transient failures, and there are so many at most. -/
structure Interruption.Planned (policy : TransientPolicy) (room : Nat)
    (plan : List (List Interruption)) : Prop where
  transient : ∀ row ∈ plan, ∀ i ∈ row, policy.isTransient i.output
  room : plan.flatten.length ≤ room

/-- The memory after an interruption and the delay before the next attempt. -/
def Interrupted.resume (m : Interrupted σ) (policy : TransientPolicy) (i : Interruption)
    (row : List Interruption) : Interrupted σ :=
  { m with
    plan := row :: m.plan.tail
    lost := m.lost + (i.duration + 1000000 * policy.retryDelay)
    delivered := m.delivered + 1 }

namespace World

/-- The world in which no time was lost. -/
def calm (w : World (Interrupted σ)) : World σ :=
  ⟨w.disk, w.clock - w.tools.lost, w.tools.inner⟩

/-- The world in which some time was lost. -/
def delayed (w : World σ) (m : Interrupted σ) : World (Interrupted σ) :=
  ⟨w.disk, w.clock + m.lost, { m with inner := w.tools }⟩

theorem calm_delayed (w : World σ) (m : Interrupted σ) : (w.delayed m).calm = w := by
  simp only [calm, delayed, Nat.add_sub_cancel]

end World

namespace Tool

/-- A call that is not interrupted. -/
def unhindered (t : Tool σ α) : Tool (Interrupted σ) α := fun w =>
  match t w.calm with
  | .ok a v => .ok a (v.delayed w.tools)
  | .error e v => .error e (v.delayed w.tools)

/-- A call of the profiler. -/
def interrupted (policy : TransientPolicy) (t : Tool σ ToolOutput) :
    Tool (Interrupted σ) ToolOutput := fun w =>
  match t w.calm with
  | .error e v => .error e (v.delayed w.tools)
  | .ok o v =>
    if policy.isTransient o then .ok o (v.delayed w.tools)
    else match w.tools.plan.headD [] with
      | [] => .ok o (v.delayed { w.tools with plan := w.tools.plan.tail })
      | i :: row => .ok i.output
          { w with clock := w.clock + i.duration, tools := w.tools.resume policy i row }

end Tool

/-- A toolchain with interruptions, of which there are so many at most. -/
def Toolchain.interrupted (tc : Toolchain σ) (room : Nat) : Toolchain (Interrupted σ) where
  compile ir object := (tc.compile ir object).unhindered
  link object executable := (tc.link object executable).unhindered
  transform flag input output := (tc.transform flag input output).unhindered
  measure executable := (tc.measure executable).interrupted tc.transient
  describe := tc.describe.unhindered
  transient := tc.transient
  marker := tc.marker
  patience := tc.patience + room

namespace Interruption.Planned

variable {policy : TransientPolicy} {room : Nat} {plan : List (List Interruption)}

theorem head (h : Planned policy room plan) :
    (∀ i ∈ plan.headD [], policy.isTransient i.output) ∧ (plan.headD []).length ≤ room := by
  cases plan with
  | nil => exact ⟨nofun, Nat.zero_le _⟩
  | cons row plan =>
    have hroom := h.room
    rw [List.flatten_cons, List.length_append] at hroom
    exact ⟨h.transient row List.mem_cons_self, Nat.le_of_add_right_le hroom⟩

theorem tail (h : Planned policy room plan) : Planned policy room plan.tail := by
  refine ⟨fun row hrow => h.transient row (List.mem_of_mem_tail hrow), ?_⟩
  cases plan with
  | nil => exact Nat.zero_le _
  | cons row plan =>
    have hroom := h.room
    rw [List.flatten_cons, List.length_append] at hroom
    exact Nat.le_of_add_left_le hroom

end Interruption.Planned

namespace Tool

variable {policy : TransientPolicy} {t : Tool σ ToolOutput} {w v : World σ} {o : ToolOutput}
  {m : Interrupted σ}

theorem interrupted_of_error {e : ToolError} (h : t w = .error e v) (m : Interrupted σ) :
    t.interrupted policy (w.delayed m) = .error e (v.delayed m) := by
  simp only [interrupted, World.calm_delayed, h]
  rfl

theorem interrupted_of_transient (h : t w = .ok o v) (transient : policy.isTransient o)
    (m : Interrupted σ) : t.interrupted policy (w.delayed m) = .ok o (v.delayed m) := by
  simp only [interrupted, World.calm_delayed, h, transient, if_true]
  rfl

theorem interrupted_of_empty (h : t w = .ok o v) (ends : policy.isTransient o = false)
    (row : m.plan.headD [] = []) : t.interrupted policy (w.delayed m) =
      .ok o (v.delayed { m with plan := m.plan.tail }) := by
  have hrow : (w.delayed m).tools.plan.headD [] = [] := row
  simp only [interrupted, World.calm_delayed, h, ends, Bool.false_eq_true, if_false, hrow]
  rfl

theorem interrupted_of_pending (h : t w = .ok o v) (ends : policy.isTransient o = false)
    {i : Interruption} {row : List Interruption} (pending : m.plan.headD [] = i :: row) :
    t.interrupted policy (w.delayed m) = .ok i.output { w.delayed m with
      clock := w.clock + m.lost + i.duration
      tools := { m.resume policy i row with inner := w.tools } } := by
  have hrow : (w.delayed m).tools.plan.headD [] = i :: row := pending
  simp only [interrupted, World.calm_delayed, h, ends, Bool.false_eq_true, if_false, hrow]
  rfl

end Tool

end PassTuner
