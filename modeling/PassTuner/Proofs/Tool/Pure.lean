import PassTuner.Proofs.Tool.Conduct

/-!
# Deterministic tools

The outcome of a deterministic tool is a function of the content of its input, and of the flag. Such
functions are a conduct with one outcome for every input, and there is a toolchain that works by
them.
-/

namespace PassTuner

/-- What deterministic tools make of their inputs. -/
structure PureTools where
  transform : String → ByteArray → Except CallFailure ByteArray
  compile : ByteArray → Except CallFailure ByteArray
  link : ByteArray → Except CallFailure ByteArray
  measure : ByteArray → Except ToolError ToolOutput

namespace PureTools

variable {T : PureTools} {c c' x x' source : ByteArray} {flags : List String}
  {failure : CallFailure}

def conduct (T : PureTools) : Conduct where
  transform flag code outcome := outcome = T.transform flag code
  compile code outcome := outcome = T.compile code
  link object outcome := outcome = T.link object
  measure executable outcome := outcome = T.measure executable

/-- The executable that is made of code. -/
def assemble (T : PureTools) (code : ByteArray) : Except CallFailure ByteArray :=
  match T.compile code with
  | .ok object => T.link object
  | .error failure => .error failure

theorem assembled_iff : T.conduct.Assembled c x ↔ T.assemble c = .ok x := by
  unfold Conduct.Assembled assemble
  constructor
  · rintro ⟨object, hcompile, hlink⟩
    have hcompile : T.compile c = .ok object := hcompile.symm
    rw [hcompile]
    exact hlink.symm
  · intro h
    cases hcompile : T.compile c with
    | ok object =>
      rw [hcompile] at h
      exact ⟨object, hcompile.symm, h.symm⟩
    | error failure => simp [hcompile] at h

theorem unassembled_iff : T.conduct.Unassembled c failure ↔ T.assemble c = .error failure := by
  unfold Conduct.Unassembled assemble
  constructor
  · rintro (hcompile | ⟨object, hcompile, hlink⟩)
    · have hcompile : T.compile c = .error failure := hcompile.symm
      rw [hcompile]
    · have hcompile : T.compile c = .ok object := hcompile.symm
      rw [hcompile]
      exact hlink.symm
  · intro h
    cases hcompile : T.compile c with
    | ok object =>
      rw [hcompile] at h
      exact .inr ⟨object, hcompile.symm, h.symm⟩
    | error failure' =>
      rw [hcompile] at h
      cases h
      exact .inl hcompile.symm

theorem derived_unique (h : T.conduct.Derived source flags c)
    (h' : T.conduct.Derived source flags c') : c = c' := by
  induction h generalizing c' with
  | base =>
    generalize hflags : ([] : List String) = flags at h'
    cases h' with
    | base => rfl
    | step => simp at hflags
  | @step flags flag code made _ hmade ih =>
    generalize hflags : flags ++ [flag] = flags' at h'
    cases h' with
    | base => simp at hflags
    | step hd hmade' =>
      obtain ⟨rfl, heq⟩ := List.append_inj' hflags rfl
      cases heq
      rw [ih hd] at hmade
      exact Except.ok.inj (hmade.trans hmade'.symm)

/-! ## A toolchain that works by functions -/

/-- A call that writes what a function makes of its input. -/
def call (f : ByteArray → Except CallFailure ByteArray) (input output : String) :
    Tool Unit ToolOutput := do
  match f (← Tool.read input) with
  | .ok made =>
    Tool.write output made
    return .ok ""
  | .error (.refused o _) => return o
  | .error (.broken cause) => throw cause

def toolchain (T : PureTools) : Toolchain Unit where
  compile := call T.compile
  link := call T.link
  transform flag := call (T.transform flag)
  measure executable := do
    match T.measure (← Tool.read executable) with
    | .ok o => return o
    | .error cause => throw cause
  describe := return .ok ""
  transient := .standard

variable {f : ByteArray → Except CallFailure ByteArray} {input output : String} {w : World Unit}

theorem call_of_unread {e : DiskError} (h : w.disk.read input = .error e) :
    call f input output w = .error (.file input e) w := by
  change EStateM.bind (Tool.read input) _ w = _
  simp [EStateM.bind, Tool.read, h]

theorem call_of_read (h : w.disk.read input = .ok c) :
    call f input output w = match f c with
      | .ok made => match w.disk.write output made with
        | .ok disk => .ok (.ok "") { w with disk }
        | .error e => .error (.file output e) w
      | .error (.refused o _) => .ok o w
      | .error (.broken cause) => .error cause w := by
  change EStateM.bind (Tool.read input) _ w = _
  simp only [EStateM.bind, Tool.read, h]
  cases f c with
  | ok made =>
    change EStateM.bind (Tool.write output made) _ w = _
    simp only [EStateM.bind, Tool.write]
    cases w.disk.write output made <;> rfl
  | error failure => cases failure <;> rfl

theorem changedOnly_call (f : ByteArray → Except CallFailure ByteArray) (input output : String)
    (w : World Unit) : Disk.ChangedOnly (w.disk.Leads output) w.disk
      (Tool.after (call f input output) w).disk := by
  unfold Tool.after
  cases hread : w.disk.read input with
  | error e =>
    rw [call_of_unread hread]
    exact Disk.ChangedOnly.refl _ _
  | ok c =>
    rw [call_of_read hread]
    cases f c with
    | error failure => cases failure <;> exact Disk.ChangedOnly.refl _ _
    | ok made =>
      cases hwrite : w.disk.write output made with
      | error e =>
        simp only [hwrite]
        exact Disk.ChangedOnly.refl _ _
      | ok d =>
        simp only [hwrite]
        obtain ⟨p, hp, rfl⟩ := Disk.leads_of_write hwrite
        refine (Disk.changedOnly_put hp.apart made).mono ?_
        rintro q rfl
        exact hp

/-- A call whose input can be read ends as the function says, if its output can be written. -/
theorem call_of_leads {p : Place} (h : w.disk.read input = .ok c) (hp : w.disk.Leads output p) :
    call f input output w = match f c with
      | .ok made => .ok (.ok "") { w with disk := w.disk.put p (.file made) }
      | .error (.refused o _) => .ok o w
      | .error (.broken cause) => .error cause w := by
  rw [call_of_read h]
  cases f c with
  | error failure => cases failure <;> rfl
  | ok made => simp only [hp.write]

theorem keeps_call (f : ByteArray → Except CallFailure ByteArray) :
    Tool.Keeps (fun c outcome => outcome = f c) (call f) where
  changed := changedOnly_call f
  made := by
    intro input output w o w' h hs
    cases hread : w.disk.read input with
    | error e =>
      rw [call_of_unread hread] at h
      cases h
    | ok c =>
      rw [call_of_read hread] at h
      cases hf : f c with
      | error failure =>
        cases failure with
        | refused o' failed =>
          simp only [hf] at h
          cases h
          rw [failed] at hs
          cases hs
        | broken cause => simp [hf] at h
      | ok made =>
        cases hwrite : w.disk.write output made with
        | error e => simp [hf, hwrite] at h
        | ok d =>
          simp only [hf, hwrite] at h
          cases h
          obtain ⟨p, hp, rfl⟩ := Disk.leads_of_write hwrite
          exact ⟨c, p, made, rfl, hp, Disk.get?_put_same _ hp.ne_root _, hf.symm⟩
  refused := by
    intro input output w o w' content p h failed hread hp
    rw [call_of_leads hread hp] at h
    cases hf : f content with
    | ok made =>
      simp only [hf] at h
      cases h
      cases failed
    | error failure =>
      cases failure with
      | refused o' _ =>
        simp only [hf] at h
        cases h
        rfl
      | broken cause => simp [hf] at h
  broken := by
    intro input output w e w' content p h hread hp
    rw [call_of_leads hread hp] at h
    cases hf : f content with
    | ok made => simp [hf] at h
    | error failure =>
      cases failure with
      | refused o' _ => simp [hf] at h
      | broken cause =>
        simp only [hf] at h
        cases h
        rfl

theorem measure_of_read {executable : String} (h : w.disk.read executable = .ok x) :
    T.toolchain.measure executable w = match T.measure x with
      | .ok o => .ok o w
      | .error cause => .error cause w := by
  change EStateM.bind (Tool.read executable) _ w = _
  simp only [EStateM.bind, Tool.read, h]
  cases T.measure x <;> rfl

theorem measure_of_unread {executable : String} {e : DiskError}
    (h : w.disk.read executable = .error e) :
    T.toolchain.measure executable w = .error (.file executable e) w := by
  change EStateM.bind (Tool.read executable) _ w = _
  simp [EStateM.bind, Tool.read, h]

theorem watches_measure (T : PureTools) :
    Tool.Watches T.conduct.measure T.toolchain.measure where
  changed := by
    intro input w
    unfold Tool.after
    cases hread : w.disk.read input with
    | error e =>
      rw [measure_of_unread hread]
      exact Disk.ChangedOnly.refl _ _
    | ok x =>
      rw [measure_of_read hread]
      cases T.measure x <;> exact Disk.ChangedOnly.refl _ _
  answered := by
    intro input w o w' content h hread
    rw [measure_of_read hread] at h
    cases hm : T.measure content with
    | ok o' =>
      simp only [hm] at h
      cases h
      exact hm.symm
    | error cause => simp [hm] at h
  broken := by
    intro input w e w' content h hread
    rw [measure_of_read hread] at h
    cases hm : T.measure content with
    | ok o' => simp [hm] at h
    | error cause =>
      simp only [hm] at h
      cases h
      exact hm.symm

theorem tidy (T : PureTools) : T.toolchain.Tidy T.conduct where
  transform flag := keeps_call (T.transform flag)
  compile := keeps_call T.compile
  link := keeps_call T.link
  measure := T.watches_measure

end PureTools

end PassTuner
