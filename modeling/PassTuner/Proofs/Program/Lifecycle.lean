import PassTuner.Program.Pool
import PassTuner.Proofs.Catalog.Describing
import PassTuner.Proofs.Program.Preparing
import PassTuner.Tool.Playback

/-!
# The life of a program

`Reachable` is every bench that building, measuring, stepping and resetting make of a program that
was opened, each of them ending in an answer or in an error, with tools that may be others every
time and whatever happens to the world in between. On all of them the lineage counts as measured
just when there is a measurement of it.

A step that fails leaves the lineage where it was. The measurement of the lineage is left alone too
if there is one. Only after a reset that failed half-way there is none: then the step measures the
base before it tries the action, and what it measured stays when the action fails.
-/

namespace PassTuner.Program

variable {σ : Type} {b b' : Bench σ} {e : EnvironmentError}

/-! ## What an operation does to the state of a program -/

/-- A program whose state fits together. -/
structure Coherent (p : Program) : Prop where
  /-- The lineage counts as measured just when there is a measurement of it. -/
  measured : p.stage = .measured ↔ p.current.isSome
  base : p.base.isSome
  away : p.lineage ≠ .base → p.stage = .measured
  home : p.lineage = .base → p.stage = .measured → p.current = p.base

/-- A program that was not measured, but perhaps built. -/
structure Unmeasured (p q : Program) : Prop where
  lineage : q.lineage = p.lineage
  base : q.base = p.base
  current : q.current = p.current
  stage : q.stage = p.stage ∨ p.stage = .unbuilt ∧ q.stage = .built

/-- A program whose lineage was measured. -/
structure MeasuredAs (m : Measurement) (p q : Program) : Prop where
  lineage : q.lineage = p.lineage
  base : q.base = if p.lineage.isBase then some m else p.base
  current : q.current = some m
  stage : q.stage = .measured

theorem Alike.unmeasured {p q : Program} (h : Alike p q) : Unmeasured p q :=
  ⟨h.lineage, h.base, h.current, .inl h.stage⟩

theorem build_of_unbuilt (tc : Toolchain σ) (h : b.program.stage = .unbuilt) :
    build tc b = (ensureBuilt tc b.program.lineage none >>= fun _ =>
      Work.modifyProgram fun p => { p with stage := .built }) b := by
  change (if b.program.stage = .unbuilt then _ else _ : Work σ Unit) b = _
  rw [if_pos h]

theorem build_of_built (tc : Toolchain σ) (h : b.program.stage ≠ .unbuilt) :
    build tc b = .ok () b := by
  change (if b.program.stage = .unbuilt then _ else _ : Work σ Unit) b = _
  rw [if_neg h]
  rfl

theorem build_unmeasured (tc : Toolchain σ) : (build tc).Along Unmeasured := by
  intro b
  by_cases hs : b.program.stage = .unbuilt
  · have hb := build_of_unbuilt tc hs
    cases he : ensureBuilt tc b.program.lineage none b with
    | error e b₁ =>
      rw [Work.after_of_error (hb.trans (EStateM.bind_of_error he _))]
      exact ((alike_ensureBuilt tc _ _).of_error he).unmeasured
    | ok a b₁ =>
      have ha := (alike_ensureBuilt tc _ _).of_ok he
      rw [Work.after_of_ok (hb.trans (EStateM.bind_of_ok he _))]
      exact ⟨ha.lineage, ha.base, ha.current, .inr ⟨hs, rfl⟩⟩
  · rw [Work.after_of_ok (build_of_built tc hs)]
    exact (Alike.refl _).unmeasured

/-- What measuring does once the lineage is built. -/
theorem measure_eq (tc : Toolchain σ) : measure tc = build tc >>= fun _ => Work.program >>= fun p =>
    runMeasurement tc p.lineage (p.cache.artifacts p.lineage).executable >>= fun m =>
    Work.modifyProgram (fun p => { p with
      base := if p.lineage.isBase then some m else p.base
      current := some m
      stage := .measured }) >>= fun _ => pure m := rfl

/-- What is measured is the executable of the lineage. -/
theorem of_measure_ok {tc : Toolchain σ} {m : Measurement} (h : measure tc b = .ok m b') :
    ∃ b₁ b₂, build tc b = .ok () b₁ ∧
      runMeasurement tc b₁.program.lineage
        (b₁.program.cache.artifacts b₁.program.lineage).executable b₁ = .ok m b₂ ∧
      b' = { b₂ with program := { b₂.program with
        base := if b₂.program.lineage.isBase then some m else b₂.program.base
        current := some m
        stage := .measured } } := by
  rw [measure_eq] at h
  obtain ⟨_, b₁, hb, h⟩ := EStateM.of_bind_ok h
  obtain ⟨_, _, hprogram, h⟩ := EStateM.of_bind_ok h
  cases hprogram
  obtain ⟨m', b₂, hm, h⟩ := EStateM.of_bind_ok h
  cases h
  exact ⟨b₁, b₂, hb, hm, rfl⟩

theorem of_measure_error {tc : Toolchain σ} (h : measure tc b = .error e b') :
    build tc b = .error e b' ∨ ∃ b₁, build tc b = .ok () b₁ ∧
      runMeasurement tc b₁.program.lineage
        (b₁.program.cache.artifacts b₁.program.lineage).executable b₁ = .error e b' := by
  rw [measure_eq] at h
  rcases EStateM.of_bind_error h with hb | ⟨_, b₁, hb, h⟩
  · exact .inl hb
  rcases EStateM.of_bind_error h with hp | ⟨p, b₂, hp, h⟩
  · cases hp
  cases hp
  rcases EStateM.of_bind_error h with hm | ⟨m, b₃, hm, h⟩
  · exact .inr ⟨b₁, hb, hm⟩
  · cases h

theorem measure_of_error {tc : Toolchain σ} (h : measure tc b = .error e b') :
    Unmeasured b.program b'.program := by
  rcases of_measure_error h with hb | ⟨b₁, hb, hm⟩
  · exact (build_unmeasured tc).of_error hb
  have hu : Unmeasured b.program b₁.program := (build_unmeasured tc).of_ok hb
  have ha := (alike_runMeasurement tc _ _).of_error hm
  exact ⟨ha.lineage.trans hu.lineage, ha.base.trans hu.base, ha.current.trans hu.current,
    by rw [ha.stage]; exact hu.stage⟩

theorem measure_of_ok {tc : Toolchain σ} {m : Measurement} (h : measure tc b = .ok m b') :
    MeasuredAs m b.program b'.program := by
  obtain ⟨b₁, b₂, hb, hm, rfl⟩ := of_measure_ok h
  have hu : Unmeasured b.program b₁.program := (build_unmeasured tc).of_ok hb
  have ha := (alike_runMeasurement tc _ _).of_ok hm
  refine ⟨ha.lineage.trans hu.lineage, ?_, rfl, rfl⟩
  change (if b₂.program.lineage.isBase then _ else b₂.program.base) = _
  rw [ha.lineage.trans hu.lineage, ha.base.trans hu.base]

theorem standingCost_eq (tc : Toolchain σ) (b : Bench σ) : standingCost tc b =
    (match b.program.measuredCost? with
      | some cost => pure cost
      | none => measure tc >>= fun m => pure m.cost : Work σ Float) b := rfl

theorem standingCost_of_measured (tc : Toolchain σ) {cost : Float}
    (h : b.program.measuredCost? = some cost) : standingCost tc b = .ok cost b := by
  simp only [standingCost_eq, h]
  rfl

theorem standingCost_of_unmeasured (tc : Toolchain σ) (h : b.program.measuredCost? = none) :
    standingCost tc b = (measure tc >>= fun m => pure m.cost) b := by
  simp only [standingCost_eq, h]

theorem of_standingCost_ok {tc : Toolchain σ} {cost : Float}
    (h : standingCost tc b = .ok cost b') :
    b.program.measuredCost? = some cost ∧ b' = b ∨
      b.program.measuredCost? = none ∧ ∃ m, measure tc b = .ok m b' ∧ m.cost = cost := by
  cases hc : b.program.measuredCost? with
  | some c =>
    rw [standingCost_of_measured tc hc] at h
    cases h
    exact .inl ⟨rfl, rfl⟩
  | none =>
    rw [standingCost_of_unmeasured tc hc] at h
    obtain ⟨m, b₁, hm, h⟩ := EStateM.of_bind_ok h
    cases h
    exact .inr ⟨rfl, m, hm, rfl⟩

theorem lineage_of_standingCost {tc : Toolchain σ} {cost : Float}
    (h : standingCost tc b = .ok cost b') : b'.program.lineage = b.program.lineage := by
  rcases of_standingCost_ok h with ⟨_, rfl⟩ | ⟨_, m, hm, _⟩
  · rfl
  · exact (measure_of_ok hm).lineage

theorem of_standingCost_error {tc : Toolchain σ} (h : standingCost tc b = .error e b') :
    b.program.measuredCost? = none ∧ measure tc b = .error e b' := by
  cases hc : b.program.measuredCost? with
  | some c =>
    rw [standingCost_of_measured tc hc] at h
    cases h
  | none =>
    rw [standingCost_of_unmeasured tc hc] at h
    rcases EStateM.of_bind_error h with hm | ⟨m, b₁, _, h⟩
    · exact ⟨rfl, hm⟩
    · cases h

/-- A program that went one action further. -/
structure Advanced (action : ActionId) (p q : Program) : Prop where
  lineage : p.lineage.extend? action = .ok q.lineage
  base : q.base = p.base
  current : q.current.isSome
  stage : q.stage = .measured

/-- How advancing goes on from the variant that the action leads to, if it leads to one. -/
theorem advance_eq (tc : Toolchain σ) (action : ActionId) (flag : String) (before : Float)
    (b : Bench σ) : advance tc action flag before b =
      (match b.program.lineage.extend? action with
      | .error fault => throw (.variant fault)
      | .ok v => ensureBuilt tc v (some flag) >>= fun a =>
        runMeasurement tc v a.executable >>= fun m =>
        match Cost.reward before m.cost with
        | .error _ => throw (.invalidCost b.program.name v before m.cost)
        | .ok reward => Work.modifyProgram (fun p =>
            { p with lineage := v, current := some m, stage := .measured }) >>= fun _ =>
            pure reward : Work σ Float) b := rfl

/-- Everything that an advance that succeeds has done. -/
theorem of_advance_ok {tc : Toolchain σ} {action : ActionId} {flag : String} {before reward : Float}
    (h : advance tc action flag before b = .ok reward b') :
    ∃ v a b₁ m b₂, b.program.lineage.extend? action = .ok v ∧
      ensureBuilt tc v (some flag) b = .ok a b₁ ∧ runMeasurement tc v a.executable b₁ = .ok m b₂ ∧
      Cost.reward before m.cost = .ok reward ∧
      b' = { b₂ with program :=
        { b₂.program with lineage := v, current := some m, stage := .measured } } := by
  cases hv : b.program.lineage.extend? action with
  | error fault =>
    simp only [advance_eq, hv] at h
    cases h
  | ok v =>
    simp only [advance_eq, hv] at h
    obtain ⟨a, b₁, ha, h⟩ := EStateM.of_bind_ok h
    obtain ⟨m, b₂, hm, h⟩ := EStateM.of_bind_ok h
    cases hr : Cost.reward before m.cost with
    | error fault =>
      simp only [hr] at h
      cases h
    | ok reward' =>
      simp only [hr] at h
      cases h
      exact ⟨v, a, b₁, m, b₂, rfl, ha, hm, hr, rfl⟩

/-- Where an advance can fail. -/
theorem of_advance_error {tc : Toolchain σ} {action : ActionId} {flag : String} {before : Float}
    (h : advance tc action flag before b = .error e b') :
    (∃ fault, b.program.lineage.extend? action = .error fault ∧ e = .variant fault ∧ b' = b) ∨
    ∃ v, b.program.lineage.extend? action = .ok v ∧
      (ensureBuilt tc v (some flag) b = .error e b' ∨
        ∃ a b₁, ensureBuilt tc v (some flag) b = .ok a b₁ ∧
          (runMeasurement tc v a.executable b₁ = .error e b' ∨
            ∃ m fault, runMeasurement tc v a.executable b₁ = .ok m b' ∧
              Cost.reward before m.cost = .error fault ∧
              e = .invalidCost b.program.name v before m.cost)) := by
  cases hv : b.program.lineage.extend? action with
  | error fault =>
    simp only [advance_eq, hv] at h
    cases h
    exact .inl ⟨fault, rfl, rfl, rfl⟩
  | ok v =>
    simp only [advance_eq, hv] at h
    refine .inr ⟨v, rfl, ?_⟩
    rcases EStateM.of_bind_error h with ha | ⟨a, b₁, ha, h⟩
    · exact .inl ha
    refine .inr ⟨a, b₁, ha, ?_⟩
    rcases EStateM.of_bind_error h with hm | ⟨m, b₂, hm, h⟩
    · exact .inl hm
    cases hr : Cost.reward before m.cost with
    | error fault =>
      simp only [hr] at h
      cases h
      exact .inr ⟨m, fault, hm, hr, rfl⟩
    | ok reward =>
      simp only [hr] at h
      cases h

theorem advance_of_error {tc : Toolchain σ} {action : ActionId} {flag : String} {before : Float}
    (h : advance tc action flag before b = .error e b') : Alike b.program b'.program := by
  rcases of_advance_error h with ⟨_, _, _, rfl⟩ | ⟨v, _, ha | ⟨a, b₁, ha, h⟩⟩
  · exact Alike.refl _
  · exact (alike_ensureBuilt tc _ _).of_error ha
  have h₁ := (alike_ensureBuilt tc _ _).of_ok ha
  rcases h with hm | ⟨m, _, hm, _⟩
  · exact h₁.trans _ _ _ ((alike_runMeasurement tc _ _).of_error hm)
  · exact h₁.trans _ _ _ ((alike_runMeasurement tc _ _).of_ok hm)

theorem advance_of_ok {tc : Toolchain σ} {action : ActionId} {flag : String} {before reward : Float}
    (h : advance tc action flag before b = .ok reward b') :
    Advanced action b.program b'.program := by
  obtain ⟨v, a, b₁, m, b₂, hv, ha, hm, _, rfl⟩ := of_advance_ok h
  exact ⟨hv, ((alike_runMeasurement tc _ _).of_ok hm).base.trans
    ((alike_ensureBuilt tc _ _).of_ok ha).base, rfl, rfl⟩

theorem reset_of_fresh (tc : Toolchain σ) (h : baseIsFresh b.program b.world.clock) :
    reset tc b = .ok () ⟨{ b.world with clock := b.world.clock + 1 },
      { b.program with lineage := .base, current := b.program.base, stage := .measured }⟩ := by
  change (if baseIsFresh b.program b.world.clock then _ else _ : Work σ Unit) _ = _
  rw [if_pos h]
  rfl

theorem reset_of_stale (tc : Toolchain σ) (h : baseIsFresh b.program b.world.clock = false) :
    reset tc b = (measure tc >>= fun _ => pure ()) ⟨{ b.world with clock := b.world.clock + 1 },
      { b.program with lineage := .base, current := none, stage := .unbuilt }⟩ := by
  change (if baseIsFresh b.program b.world.clock then _ else _ : Work σ Unit) _ = _
  rw [if_neg (by simp [h])]
  rfl

theorem step_of_unknown (tc : Toolchain σ) {catalog : Catalog} {action : ActionId}
    {fault : VariantError} (h : catalog.describe action = .error fault) :
    step tc catalog action b = .error (.variant fault) b := by
  simp only [step, h]
  rfl

theorem step_of_known (tc : Toolchain σ) {catalog : Catalog} {action : ActionId} {flag : String}
    (h : catalog.describe action = .ok flag) :
    step tc catalog action = standingCost tc >>= advance tc action flag := by
  simp only [step, h]

/-! ## States that fit together -/

theorem Alike.coherent {p q : Program} (h : Alike p q) (hp : Coherent p) : Coherent q := by
  rw [h]
  exact ⟨hp.measured, hp.base, hp.away, hp.home⟩

theorem Unmeasured.coherent {p q : Program} (h : Unmeasured p q) (hp : Coherent p) :
    Coherent q := by
  rcases h.stage with hs | ⟨hu, hs⟩
  · exact ⟨by rw [hs, h.current]; exact hp.measured, by rw [h.base]; exact hp.base,
      by rw [hs, h.lineage]; exact hp.away,
      by rw [hs, h.lineage, h.current, h.base]; exact hp.home⟩
  · have hn : ¬p.current.isSome := by rw [← hp.measured, hu]; decide
    refine ⟨?_, by rw [h.base]; exact hp.base, ?_, by simp [hs]⟩
    · rw [hs, h.current]
      simpa using hn
    · intro hl
      rw [h.lineage] at hl
      exact absurd (hp.away hl) (by rw [hu]; decide)

theorem MeasuredAs.coherent {p q : Program} {m : Measurement} (h : MeasuredAs m p q)
    (hb : p.base.isSome ∨ p.lineage.isBase) : Coherent q := by
  refine ⟨by simp [h.stage, h.current], ?_, fun _ => h.stage, ?_⟩
  · rw [h.base]
    split
    · rfl
    · rename_i hl
      exact hb.resolve_right hl
  · intro hl _
    rw [h.lineage] at hl
    rw [h.current, h.base, if_pos (Variant.isBase_iff.2 hl)]

theorem Advanced.coherent {p q : Program} {action : ActionId} (h : Advanced action p q)
    (hp : p.base.isSome) : Coherent q :=
  ⟨by simp [h.stage, h.current], by rw [h.base]; exact hp, fun _ => h.stage,
    fun hl => absurd hl (Variant.ne_base_of_extend? h.lineage)⟩

theorem coherent_measure (tc : Toolchain σ) (hp : Coherent b.program) :
    Coherent ((measure tc).after b).program := by
  cases h : measure tc b with
  | error e b₁ =>
    rw [Work.after_of_error h]
    exact (measure_of_error h).coherent hp
  | ok m b₁ =>
    rw [Work.after_of_ok h]
    exact (measure_of_ok h).coherent (.inl hp.base)

theorem measuredCost?_eq_none (hp : Coherent b.program) :
    b.program.measuredCost? = none ↔ b.program.current = none := by
  unfold measuredCost? cost?
  by_cases hs : b.program.stage = .measured
  · have hc := hp.measured.1 hs
    simp [hs]
  · have hc : b.program.current = none := by
      simpa [← Option.not_isSome_iff_eq_none, ← hp.measured] using hs
    simp [hs, hc]

theorem coherent_standingCost {tc : Toolchain σ} {cost : Float} (hp : Coherent b.program)
    (h : standingCost tc b = .ok cost b') : Coherent b'.program := by
  rcases of_standingCost_ok h with ⟨_, rfl⟩ | ⟨_, m, hm, _⟩
  · exact hp
  · exact (measure_of_ok hm).coherent (.inl hp.base)

theorem coherent_step (tc : Toolchain σ) (catalog : Catalog) (action : ActionId)
    (hp : Coherent b.program) : Coherent ((step tc catalog action).after b).program := by
  cases hd : catalog.describe action with
  | error fault =>
    rw [Work.after_of_error (step_of_unknown tc hd)]
    exact hp
  | ok flag =>
    rw [step_of_known tc hd]
    cases hs : standingCost tc b with
    | error e b₁ =>
      rw [Work.after_of_error (EStateM.bind_of_error hs _)]
      exact (measure_of_error (of_standingCost_error hs).2).coherent hp
    | ok cost b₁ =>
      have hp₁ := coherent_standingCost hp hs
      cases ha : advance tc action flag cost b₁ with
      | error e b₂ =>
        rw [Work.after_of_error ((EStateM.bind_of_ok hs _).trans ha)]
        exact (advance_of_error ha).coherent hp₁
      | ok reward b₂ =>
        rw [Work.after_of_ok ((EStateM.bind_of_ok hs _).trans ha)]
        exact (advance_of_ok ha).coherent hp₁.base

theorem coherent_reset (tc : Toolchain σ) (hp : Coherent b.program) :
    Coherent ((reset tc).after b).program := by
  cases hf : baseIsFresh b.program b.world.clock with
  | true =>
    rw [Work.after_of_ok (reset_of_fresh tc hf)]
    exact ⟨by simpa using hp.base, hp.base, fun _ => rfl, fun _ _ => rfl⟩
  | false =>
    let b₁ : Bench σ := ⟨{ b.world with clock := b.world.clock + 1 },
      { b.program with lineage := .base, current := none, stage := .unbuilt }⟩
    have hp₁ : Coherent b₁.program :=
      ⟨by simp [b₁], hp.base, fun hl => absurd rfl hl, fun _ hs => by cases hs⟩
    have hr := reset_of_stale tc hf
    have hm := coherent_measure tc hp₁
    cases h : measure tc b₁ with
    | error e b₂ =>
      rw [Work.after_of_error h] at hm
      rwa [Work.after_of_error (hr.trans (EStateM.bind_of_error h _))]
    | ok m b₂ =>
      rw [Work.after_of_ok h] at hm
      rwa [Work.after_of_ok (hr.trans (EStateM.bind_of_ok h _))]

/-- What is asked of a source before its cache is opened. -/
theorem open_eq (tc : Toolchain σ) (settings : EnvironmentSettings) (source : String)
    (w : World σ) : Program.open tc settings source w =
      if Path.extension? source = some "ll" then
        if w.disk.isFile source then
          match Path.stem? source with
          | none => .error (.invalidSource source .nameless) w
          | some name => (Cache.open (Path.join settings.workDir name) name source >>= fun cache =>
              starting (fresh name source cache settings)
                (build tc >>= fun _ => measure tc >>= fun _ => pure ())) w
        else .error (.invalidSource source .missing) w
      else .error (.invalidSource source .extension) w := by
  by_cases extension : Path.extension? source = some "ll"
  · rw [if_pos extension]
    simp only [Program.open, extension, ne_eq, not_true_eq_false, if_false]
    change (if (!w.disk.isFile source) = true then _ else _ : Environment σ Program) w = _
    cases w.disk.isFile source with
    | false => rfl
    | true => cases Path.stem? source <;> rfl
  · rw [if_neg extension]
    simp only [Program.open, extension, ne_eq, not_false_eq_true, if_true]
    rfl

/-- Opening a source that is one. -/
theorem open_of_valid (tc : Toolchain σ) (settings : EnvironmentSettings) {source name : String}
    {w : World σ} (extension : Path.extension? source = some "ll") (file : w.disk.isFile source)
    (stem : Path.stem? source = some name) :
    Program.open tc settings source w =
      (Cache.open (Path.join settings.workDir name) name source >>= fun cache =>
        starting (fresh name source cache settings)
          (build tc >>= fun _ => measure tc >>= fun _ => pure ())) w := by
  rw [open_eq, if_pos extension, if_pos file, stem]

theorem valid_of_open_ok {tc : Toolchain σ} {settings : EnvironmentSettings} {source : String}
    {w w' : World σ} {p : Program} (h : Program.open tc settings source w = .ok p w') :
    Path.extension? source = some "ll" ∧ w.disk.isFile source ∧
      ∃ name, Path.stem? source = some name := by
  rw [open_eq] at h
  split at h
  · rename_i extension
    split at h
    · rename_i file
      cases stem : Path.stem? source with
      | some name => exact ⟨extension, file, name, rfl⟩
      | none =>
        rw [stem] at h
        cases h
    · cases h
  · cases h

theorem coherent_open {tc : Toolchain σ} {settings : EnvironmentSettings} {source : String}
    {w w' : World σ} {p : Program} (h : Program.open tc settings source w = .ok p w') :
    Coherent p := by
  obtain ⟨extension, file, name, stem⟩ := valid_of_open_ok h
  rw [open_of_valid tc settings extension file stem] at h
  obtain ⟨cache, w₁, _, h⟩ := EStateM.of_bind_ok h
  unfold starting at h
  split at h
  · rename_i b hb
    cases h
    obtain ⟨_, b₁, hbuild, hb⟩ := EStateM.of_bind_ok hb
    obtain ⟨m, b₂, hmeasure, hb⟩ := EStateM.of_bind_ok hb
    cases hb
    refine (measure_of_ok hmeasure).coherent (.inr ?_)
    rw [((build_unmeasured tc).of_ok hbuild).lineage]
    rfl
  · cases h

/-! ## Programs that operations reach -/

/-- The benches that operations make of a program that was opened. -/
inductive Reachable : Bench σ → Prop where
  | opened {tc : Toolchain σ} {settings : EnvironmentSettings} {source : String}
      {w w' : World σ} {p : Program} :
      Program.open tc settings source w = .ok p w' → Reachable ⟨w', p⟩
  | world {b : Bench σ} (w : World σ) : Reachable b → Reachable { b with world := w }
  | build {b : Bench σ} (tc : Toolchain σ) : Reachable b → Reachable ((build tc).after b)
  | measure {b : Bench σ} (tc : Toolchain σ) : Reachable b → Reachable ((measure tc).after b)
  | step {b : Bench σ} (tc : Toolchain σ) (catalog : Catalog) (action : ActionId) :
      Reachable b → Reachable ((step tc catalog action).after b)
  | reset {b : Bench σ} (tc : Toolchain σ) : Reachable b → Reachable ((reset tc).after b)

theorem Reachable.coherent (h : Reachable b) : Coherent b.program := by
  induction h with
  | opened ho => exact coherent_open ho
  | world w _ ih => exact ih
  | build tc _ ih => exact (build_unmeasured tc _).coherent ih
  | measure tc _ ih => exact coherent_measure tc ih
  | step tc catalog action _ ih => exact coherent_step tc catalog action ih
  | reset tc _ ih => exact coherent_reset tc ih

/-! ## Steps that fail -/

/-- The step has to measure the lineage before it can try its action, and that succeeds. -/
def MeasuresFirst (tc : Toolchain σ) (catalog : Catalog) (action : ActionId) (b : Bench σ) :
    Prop :=
  b.program.current = none ∧ (∃ flag, catalog.describe action = .ok flag) ∧
    ∃ m b₁, measure tc b = .ok m b₁

/-- A step that fails leaves the lineage alone, and the measurement of it just when it did not have
to make one before it could try its action. -/
theorem failed_step_restores (hb : Reachable b) {tc : Toolchain σ} {catalog : Catalog}
    {action : ActionId} (h : step tc catalog action b = .error e b') :
    b'.program.lineage = b.program.lineage ∧
      (b'.program.current = b.program.current ↔ ¬MeasuresFirst tc catalog action b) := by
  have hp := hb.coherent
  cases hd : catalog.describe action with
  | error fault =>
    rw [step_of_unknown tc hd] at h
    cases h
    exact ⟨rfl, by simp [MeasuresFirst, hd]⟩
  | ok flag =>
    rw [step_of_known tc hd] at h
    rcases EStateM.of_bind_error h with hs | ⟨cost, b₁, hs, ha⟩
    · obtain ⟨_, hm⟩ := of_standingCost_error hs
      have hu := measure_of_error hm
      exact ⟨hu.lineage, by simp [MeasuresFirst, hm, hu.current]⟩
    · have hkept := advance_of_error ha
      rcases of_standingCost_ok hs with ⟨hc, rfl⟩ | ⟨hc, m, hm, _⟩
      · have hn : b₁.program.current ≠ none := fun hn => by
          rw [(measuredCost?_eq_none hp).2 hn] at hc
          cases hc
        exact ⟨hkept.lineage, by simp [MeasuresFirst, hn, hkept.current]⟩
      · have hn := (measuredCost?_eq_none hp).1 hc
        have hm' := measure_of_ok hm
        refine ⟨hkept.lineage.trans hm'.lineage, ?_⟩
        simp [MeasuresFirst, hn, hd, hm, hkept.current, hm'.current]

/-! A reset that fails, with tools of which transforming always fails and measuring the second
time, strands a program without a measurement. -/

def flaky : Toolchain Calls :=
  let measured := Reply.output (.ok "SYMVEC1 5.0 0SYMVEC")
  Playback.toolchain {
    transform := [.output (.exited 1 "" "")]
    measure := [measured, .output (.exited 1 "" ""), measured]
    transient := .standard
    marker := "SYMVEC" }

def flakyWorld : World Calls := ⟨⟨[(["bench.ll"], .file "; cost 10.0\n".toUTF8)], []⟩, 0, {}⟩

def soloCatalog : Catalog := ⟨["--a"], by decide, by decide, by decide⟩

/-- The bench after a reset of the program that was opened. -/
def stranded? : Option (Bench Calls) :=
  match Program.open flaky ⟨"build", some 0⟩ "bench.ll" flakyWorld with
  | .ok p w => some ((reset flaky).after ⟨w, p⟩)
  | .error _ _ => none

/-- Whether the measurement is missing before a step and there after it, although the step fails. -/
def measuresInVain (b : Bench Calls) : Bool :=
  match step flaky soloCatalog 0 b with
  | .ok _ _ => false
  | .error _ b' => b.program.current.isNone && b'.program.current.isSome

theorem stranded?_measuresInVain : stranded?.any measuresInVain = true := by decide +kernel

theorem exists_stranded : ∃ (b b' : Bench Calls) (e : EnvironmentError), Reachable b ∧
    step flaky soloCatalog 0 b = .error e b' ∧ b.program.current = none ∧
    b'.program.current.isSome := by
  obtain ⟨b, hb, hv⟩ := (Option.any_eq_true ..).1 stranded?_measuresInVain
  have reached : Reachable b := by
    unfold stranded? at hb
    split at hb
    · rename_i p w ho
      cases hb
      exact (Reachable.opened ho).reset flaky
    · cases hb
  unfold measuresInVain at hv
  split at hv
  · cases hv
  · rename_i e b' hs
    simp only [Bool.and_eq_true, Option.isNone_iff_eq_none] at hv
    exact ⟨b, b', e, reached, hs, hv.1, hv.2⟩

/-- A step that fails need not leave the measurement alone. -/
theorem failed_step_may_measure : ¬∀ (b b' : Bench Calls) (tc : Toolchain Calls)
    (catalog : Catalog) (action : ActionId) (e : EnvironmentError), Reachable b →
    step tc catalog action b = .error e b' →
    b'.program.lineage = b.program.lineage ∧ b'.program.current = b.program.current := by
  intro h
  obtain ⟨b, b', e, reached, hs, before, after⟩ := exists_stranded
  have same := (h b b' flaky soloCatalog 0 e reached hs).2
  rw [same, before] at after
  cases after

theorem failed_step_restores_stranded : ∃ (b b' : Bench Calls) (e : EnvironmentError),
    Reachable b ∧ step flaky soloCatalog 0 b = .error e b' ∧
    b'.program.lineage = b.program.lineage ∧
    (b'.program.current = b.program.current ↔ ¬MeasuresFirst flaky soloCatalog 0 b) := by
  obtain ⟨b, b', e, reached, hs, _, _⟩ := exists_stranded
  exact ⟨b, b', e, reached, hs, failed_step_restores reached hs⟩

end PassTuner.Program
