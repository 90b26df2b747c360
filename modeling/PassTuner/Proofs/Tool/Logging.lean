import PassTuner.Proofs.Tool.Conduct

/-!
# Calls of tools in the order of their making

A toolchain with a log notes every call before it is made, whatever comes of it. Of the tools
themselves nothing is known here but that they are confined: a call changes its output at most.
-/

namespace PassTuner

/-- A call of a tool, with the paths that it is given. -/
inductive ToolCall where
  | transform (flag input output : String)
  | compile (ir object : String)
  | link (object executable : String)
  | measure (executable : String)
  | describe
  deriving DecidableEq, Repr

/-- A memory with a log of the calls. -/
structure Logged (σ : Type) where
  inner : σ
  log : List ToolCall := []

variable {σ α : Type}

/-- Notes a call and makes it. -/
def Tool.logging (call : ToolCall) (t : Tool σ α) : Tool (Logged σ) α := do
  modify fun w => { w with tools := { w.tools with log := w.tools.log ++ [call] } }
  t.within Logged.inner fun l inner => { l with inner }

/-- A toolchain whose calls are logged, those that fail among them. -/
def Toolchain.logged (tc : Toolchain σ) : Toolchain (Logged σ) where
  compile ir object := Tool.logging (.compile ir object) (tc.compile ir object)
  link object executable := Tool.logging (.link object executable) (tc.link object executable)
  transform flag input output :=
    Tool.logging (.transform flag input output) (tc.transform flag input output)
  measure executable := Tool.logging (.measure executable) (tc.measure executable)
  describe := Tool.logging .describe tc.describe
  transient := tc.transient
  marker := tc.marker
  patience := tc.patience

/-- One log goes on where another ends, with calls of some kind. -/
def ToolCall.Added (Q : ToolCall → Prop) (earlier later : List ToolCall) : Prop :=
  ∃ calls, later = earlier ++ calls ∧ ∀ call ∈ calls, Q call

namespace ToolCall

variable {Q Q' : ToolCall → Prop} {l l' l'' : List ToolCall}

theorem Added.refl (Q : ToolCall → Prop) (l : List ToolCall) : Added Q l l :=
  ⟨[], (List.append_nil l).symm, nofun⟩

theorem Added.trans (h : Added Q l l') (h' : Added Q l' l'') : Added Q l l'' := by
  obtain ⟨calls, rfl, hcalls⟩ := h
  obtain ⟨more, rfl, hmore⟩ := h'
  refine ⟨calls ++ more, List.append_assoc .., fun call hcall => ?_⟩
  exact (List.mem_append.1 hcall).elim (hcalls call) (hmore call)

theorem Added.mono (h : Added Q l l') (hQ : ∀ call, Q call → Q' call) : Added Q' l l' := by
  obtain ⟨calls, hl, hcalls⟩ := h
  exact ⟨calls, hl, fun call hcall => hQ call (hcalls call hcall)⟩

theorem added_one {call : ToolCall} (h : Q call) : Added Q l (l ++ [call]) :=
  ⟨[call], rfl, fun _ hother => List.mem_singleton.1 hother ▸ h⟩

end ToolCall

/-- A call comes to the same when it is logged. -/
theorem Tool.logging_eq (call : ToolCall) (t : Tool σ α) (w : World (Logged σ)) :
    Tool.logging call t w = match t ⟨w.disk, w.clock, w.tools.inner⟩ with
      | .ok a v => .ok a ⟨v.disk, v.clock, v.tools, w.tools.log ++ [call]⟩
      | .error e v => .error e ⟨v.disk, v.clock, v.tools, w.tools.log ++ [call]⟩ := rfl

theorem Tool.after_logging (call : ToolCall) (t : Tool σ α) (w : World (Logged σ)) :
    (Tool.logging call t).after w =
      let v := t.after ⟨w.disk, w.clock, w.tools.inner⟩
      ⟨v.disk, v.clock, v.tools, w.tools.log ++ [call]⟩ := by
  simp only [Tool.after, Tool.logging_eq]
  cases t ⟨w.disk, w.clock, w.tools.inner⟩ <;> rfl

/-! ## Confined tools -/

/-- A call that changes nothing on the disk but its output. -/
def Tool.Confined (call : (input output : String) → Tool σ ToolOutput) : Prop :=
  ∀ input output w, Disk.ChangedOnly (w.disk.Leads output) w.disk ((call input output).after w).disk

/-- A toolchain whose tools write their outputs only. What they write there, and whether they say
that they succeeded when they did, is left open. -/
structure Toolchain.Confined (tc : Toolchain σ) : Prop where
  transform : ∀ flag, Tool.Confined (tc.transform flag)
  compile : Tool.Confined tc.compile
  link : Tool.Confined tc.link
  measure : ∀ executable w,
    Disk.ChangedOnly (fun _ => False) w.disk ((tc.measure executable).after w).disk

theorem Toolchain.Tidy.confined {tc : Toolchain σ} {C : Conduct} (h : tc.Tidy C) : tc.Confined :=
  ⟨fun flag => (h.transform flag).changed, h.compile.changed, h.link.changed, h.measure.changed⟩

/-! ## Worlds with a log -/

/-- From one world to another, files at some places changed at most and calls of some kind were
made. -/
structure World.Went (P : Place → Prop) (Q : ToolCall → Prop) (w w' : World (Logged σ)) : Prop where
  changed : Disk.ChangedOnly P w.disk w'.disk
  calls : ToolCall.Added Q w.tools.log w'.tools.log

namespace World

variable {P P' : Place → Prop} {Q Q' : ToolCall → Prop} {w w' w'' : World (Logged σ)}

theorem Went.refl (P : Place → Prop) (Q : ToolCall → Prop) (w : World (Logged σ)) : Went P Q w w :=
  ⟨Disk.ChangedOnly.refl P _, .refl Q _⟩

theorem Went.trans (h : Went P Q w w') (h' : Went P Q w' w'') : Went P Q w w'' :=
  ⟨h.changed.trans h'.changed, h.calls.trans h'.calls⟩

theorem Went.mono (h : Went P Q w w') (hP : ∀ p, P p → P' p) (hQ : ∀ call, Q call → Q' call) :
    Went P' Q' w w' := ⟨h.changed.mono hP, h.calls.mono hQ⟩

theorem went_logging {call : ToolCall} {t : Tool σ α} (w : World (Logged σ))
    (h : ∀ w', w'.disk = w.disk → Disk.ChangedOnly P w.disk (t.after w').disk) :
    Went P (· = call) w ((Tool.logging call t).after w) := by
  have hchanged := h ⟨w.disk, w.clock, w.tools.inner⟩ rfl
  rw [Tool.after_logging]
  exact ⟨hchanged, ToolCall.added_one rfl⟩

end World

end PassTuner
