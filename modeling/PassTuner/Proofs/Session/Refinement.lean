import PassTuner.Proofs.Program.Opening
import PassTuner.Proofs.Session.Invariants
import PassTuner.Proofs.Session.Restoring

/-!
# The cache makes no difference

A session with deterministic tools and one catalog reports what an environment without a cache
reports: every answer, and the lineage, the state and the costs after it. Others may take away
artifacts and the manifest while the program is at its base and measured. What ties the two together
is that all entries can be restored and that the code of the lineage is there.
-/

namespace PassTuner

def Measurement.record (a : Measurement) : MeasurementRecord := ⟨a.state, a.cost⟩

/-- A program that shows what a cacheless environment shows, and has what it takes to go on alike.
-/
structure Mirrors {σ : Type} (T : PureTools) (tc : Toolchain σ) (catalog : Catalog) (s : Site)
    (source : ByteArray) (p : Program) (d : Disk) (r : Cacheless) : Prop where
  state : ∃ m, Program.At s m p ∧ Restores T catalog s source m d
  lineage : p.lineage = r.lineage
  stage : p.stage = .measured
  current : p.current.map (·.record) = some r.current
  base : p.base.map (·.record) = some r.base
  code : d.get? (s.codePlace r.lineage) = some (.file r.code)
  derived : ∃ flags, catalog.describeAll r.lineage.actions = .ok flags ∧
    T.conduct.Derived source flags r.code
  fits : s.Fits r.lineage
  opened : Cacheless.open T tc s.stem source = .ok ⟨.base, source, r.base, r.base⟩

variable {σ : Type} {s : Site} {tc : Toolchain σ} {T : PureTools} {catalog : Catalog}
  {source : ByteArray} {workDir : String} {m m' : Manifest} {u v : Variant} {d d' : Disk}
  {flag : Option String} {code c x : ByteArray} {e : EnvironmentError} {p p' : Program}
  {r r' : Cacheless} {b b' : Bench σ} {a : Measurement}

theorem Mirrors.of_alike (h : Mirrors T tc catalog s source p d r) (halike : Program.Alike p p')
    (hstate : ∃ m, Program.At s m p' ∧ Restores T catalog s source m d')
    (hcode : d'.get? (s.codePlace r.lineage) = d.get? (s.codePlace r.lineage)) :
    Mirrors T tc catalog s source p' d' r where
  state := hstate
  lineage := halike.lineage.trans h.lineage
  stage := halike.stage.trans h.stage
  current := by rw [halike.current]; exact h.current
  base := by rw [halike.base]; exact h.base
  code := hcode.trans h.code
  derived := h.derived
  fits := h.fits
  opened := h.opened

/-! ## Measuring the base -/

theorem restores_measure_ok (hs : s.Clear) (tidy : tc.Tidy T.conduct) (on : s.On b.world.disk)
    (hp : Program.At s m b.program) (h : Restores T catalog s source m b.world.disk)
    (stage : b.program.stage = .unbuilt) (home : b.program.lineage = .base) (fits : s.Fits .base)
    (hm : Program.measure tc b = .ok a b') :
    Cacheless.open T tc s.stem source = .ok ⟨.base, source, a.record, a.record⟩ ∧
      s.On b'.world.disk ∧ Mirrors T tc catalog s source b'.program b'.world.disk
        ⟨.base, source, a.record, a.record⟩ := by
  obtain ⟨b₁, b₂, hb, hrun, rfl⟩ := Program.of_measure_ok hm
  obtain ⟨hlineage, _, m₁, hp₁, hensures⟩ := Program.of_build_ok hs tidy hp on stage home hb
  have on₁ := hensures.on hs on
  obtain ⟨h₁, hbuilt, _⟩ := h.ensures hs on (.base h.source) fits hensures
  obtain ⟨c, x, built⟩ := hbuilt rfl
  obtain ⟨rfl, _⟩ := PureTools.of_build_none built.build
  have hread : b₁.world.disk.read
      (b₁.program.cache.artifacts b₁.program.lineage).executable = .ok x := by
    rw [hp₁.cache, hlineage]
    exact (on₁.leads_executable hs fits.toNameable).read_of_file built.executable
  have hreading := Program.reading_of_runMeasurement_ok tidy.measure hread hrun
  rw [hp₁.name, hlineage] at hreading
  have opened : Cacheless.open T tc s.stem c = .ok ⟨.base, c, a.record, a.record⟩ := by
    simp only [Cacheless.open, built.build, hreading, Measurement.record]
  obtain ⟨hcache, hsame, _⟩ := Program.runMeasurement_ok tidy.measure hrun
  have halike := (Program.alike_runMeasurement tc _ _).of_ok hrun
  have hp₂ := hp₁.of_alike halike hcache
  have home₂ := halike.lineage.trans hlineage
  refine ⟨opened, on₁.of_changedOnly hs hsame nofun, ?_⟩
  exact {
    state := ⟨m₁, ⟨hp₂.cache, hp₂.name⟩, h₁.same hsame⟩
    lineage := home₂
    stage := rfl
    current := rfl
    base := by
      change Option.map _ (if b₂.program.lineage.isBase then some a else b₂.program.base) = _
      rw [if_pos (Variant.isBase_iff.2 home₂)]
      rfl
    code := (hsame.get? _).trans built.code
    derived := ⟨[], catalog.describeAll_base, .base⟩
    fits := fits
    opened := opened }

theorem restores_measure_error (hs : s.Clear) (tidy : tc.Tidy T.conduct) (on : s.On b.world.disk)
    (hp : Program.At s m b.program) (h : Restores T catalog s source m b.world.disk)
    (stage : b.program.stage = .unbuilt) (home : b.program.lineage = .base) (fits : s.Fits .base)
    (hm : Program.measure tc b = .error e b') :
    Cacheless.open T tc s.stem source = .error e ∧ s.On b'.world.disk ∧
      ∃ m', Restores T catalog s source m' b'.world.disk := by
  rcases Program.of_measure_error hm with hb | ⟨b₁, hb, hrun⟩
  · obtain ⟨_, _, hensures⟩ := Program.of_build_error hs tidy hp on stage home hb
    obtain ⟨h₁, _, hfails⟩ := h.ensures hs on (.base h.source) fits hensures
    refine ⟨?_, hensures.on hs on, _, h₁⟩
    simp only [Cacheless.open, hfails e rfl]
  · obtain ⟨hlineage, _, m₁, hp₁, hensures⟩ := Program.of_build_ok hs tidy hp on stage home hb
    have on₁ := hensures.on hs on
    obtain ⟨h₁, hbuilt, _⟩ := h.ensures hs on (.base h.source) fits hensures
    obtain ⟨c, x, built⟩ := hbuilt rfl
    have hread : b₁.world.disk.read
        (b₁.program.cache.artifacts b₁.program.lineage).executable = .ok x := by
      rw [hp₁.cache, hlineage]
      exact (on₁.leads_executable hs fits.toNameable).read_of_file built.executable
    have hreading := Program.reading_of_runMeasurement_error tidy.measure hread hrun
    rw [hp₁.name, hlineage] at hreading
    obtain ⟨_, hsame, _⟩ := Program.runMeasurement_error tidy.measure hrun
    refine ⟨?_, on₁.of_changedOnly hs hsame nofun, _, h₁.same hsame⟩
    simp only [Cacheless.open, built.build, hreading]

/-! ## Resetting and stepping -/

theorem Mirrors.origin (h : Mirrors T tc catalog s source p d r) :
    d.get? s.origin = some (.file source) := by
  obtain ⟨_, _, hm⟩ := h.state
  exact hm.source

/-- A reset goes back to a base whose measurement can only be repeated. -/
theorem Mirrors.reset (hs : s.Clear) (tidy : tc.Tidy T.conduct) (on : s.On b.world.disk)
    (h : Mirrors T tc catalog s source b.program b.world.disk r) (fits : s.Fits .base) :
    ∃ b', Program.reset tc b = .ok () b' ∧ s.On b'.world.disk ∧
      Mirrors T tc catalog s source b'.program b'.world.disk (r.reset source) := by
  obtain ⟨m, hp, hm⟩ := h.state
  cases hfresh : Program.baseIsFresh b.program b.world.clock with
  | true =>
    refine ⟨_, Program.reset_of_fresh tc hfresh, on, ?_⟩
    exact {
      state := ⟨m, ⟨hp.cache, hp.name⟩, hm⟩
      lineage := rfl
      stage := rfl
      current := h.base
      base := h.base
      code := h.origin
      derived := ⟨[], catalog.describeAll_base, .base⟩
      fits := fits
      opened := h.opened }
  | false =>
    have hreset := Program.reset_of_stale tc hfresh
    have hp' : Program.At s m (Program.restarted b).program := ⟨hp.cache, hp.name⟩
    cases hmeasure : Program.measure tc (Program.restarted b) with
    | ok a b₁ =>
      obtain ⟨opened, on₁, h₁⟩ :=
        restores_measure_ok hs tidy (b := Program.restarted b) on hp' hm rfl rfl fits hmeasure
      rw [h.opened] at opened
      have hbase : r.base = a.record := (Cacheless.mk.inj (Except.ok.inj opened)).2.2.2
      refine ⟨b₁, hreset.trans (EStateM.bind_of_ok hmeasure _), on₁, ?_⟩
      rw [Cacheless.reset, hbase]
      exact h₁
    | error e b₁ =>
      obtain ⟨opened, _, _⟩ :=
        restores_measure_error hs tidy (b := Program.restarted b) on hp' hm rfl rfl fits hmeasure
      rw [h.opened] at opened
      cases opened

theorem Mirrors.standingCost (h : Mirrors T tc catalog s source b.program b.world.disk r) :
    Program.standingCost tc b = .ok r.current.cost b := by
  refine Program.standingCost_of_measured tc ?_
  obtain ⟨a, ha, hrecord⟩ := Option.map_eq_some_iff.1 h.current
  simp only [Program.measuredCost?, h.stage, if_true, Program.cost?, ha, Option.map_some, ← hrecord,
    Measurement.record]

theorem Mirrors.asks (h : Mirrors T tc catalog s source p d r) {action : ActionId} {flag : String}
    (hflag : catalog.describe action = .ok flag) (hv : p.lineage.extend? action = .ok v) :
    Asks T catalog s source d p.lineage v (some flag) r.code := by
  obtain ⟨flags, hflags, hderived⟩ := h.derived
  rw [← h.lineage] at hflags
  refine .further hv hflag hflags hderived ?_ ?_
  · rw [h.lineage]
    exact h.code
  · rw [h.lineage]
    exact h.fits

/-- The code of the lineage stays when a variant of it is built. -/
theorem Mirrors.code_of_ensures (hs : s.Clear)
    (h : Mirrors T tc catalog s source p d r) {action : ActionId} {flag : String}
    (hv : p.lineage.extend? action = .ok v) {result : Except EnvironmentError Unit}
    (hensures : s.Ensures T.conduct p.lineage v (some flag) m d result m' d') :
    d'.get? (s.codePlace r.lineage) = d.get? (s.codePlace r.lineage) := by
  have hne : r.lineage ≠ v := by
    rintro rfl
    rw [h.lineage] at hv
    have hactions := congrArg List.length (Variant.actions_of_extend? hv)
    simp at hactions
  exact (Site.files_of_others hs hne hensures.changedOnly).1

theorem Mirrors.advance_ok (hs : s.Clear) (tidy : tc.Tidy T.conduct) (on : s.On b.world.disk)
    (h : Mirrors T tc catalog s source b.program b.world.disk r) {action : ActionId} {flag : String}
    (hflag : catalog.describe action = .ok flag)
    (fits : ∀ v, b.program.lineage.extend? action = .ok v → s.Fits v) {reward : Float}
    (ha : Program.advance tc action flag r.current.cost b = .ok reward b') :
    ∃ v r', r.lineage.extend? action = .ok v ∧
      r.advance T tc s.stem flag v = .ok (reward, r') ∧ s.On b'.world.disk ∧
      Mirrors T tc catalog s source b'.program b'.world.disk r' := by
  obtain ⟨m, hp, hm⟩ := h.state
  obtain ⟨v, _, b₁, a, b₂, hv, hensure, hrun, hreward, rfl⟩ := Program.of_advance_ok ha
  obtain ⟨rfl, m₁, hp₁, hensures⟩ := Program.ensureBuilt_ok hs tidy hp on hensure
  have on₁ := hensures.on hs on
  have asks := h.asks hflag hv
  obtain ⟨h₁, hbuilt, _⟩ := hm.ensures hs on asks (fits v hv) hensures
  obtain ⟨c, x, built⟩ := hbuilt rfl
  have hread : b₁.world.disk.read (s.artifacts v).executable = .ok x :=
    (on₁.leads_executable hs (fits v hv).toNameable).read_of_file built.executable
  have hreading := Program.reading_of_runMeasurement_ok tidy.measure hread hrun
  rw [hp₁.name] at hreading
  obtain ⟨hcache, hsame, _⟩ := Program.runMeasurement_ok tidy.measure hrun
  have halike := ((Program.alike_ensureBuilt tc _ _).of_ok hensure).trans _ _ _
    ((Program.alike_runMeasurement tc _ _).of_ok hrun)
  have hp₂ := hp₁.of_alike ((Program.alike_runMeasurement tc _ _).of_ok hrun) hcache
  refine ⟨v, { r with lineage := v, code := c, current := a.record }, h.lineage ▸ hv, ?_,
    on₁.of_changedOnly hs hsame nofun, ?_⟩
  · simp only [Cacheless.advance, built.build, hreading, hreward, Measurement.record]
  · exact {
      state := ⟨m₁, ⟨hp₂.cache, hp₂.name⟩, h₁.same hsame⟩
      lineage := rfl
      stage := rfl
      current := rfl
      base := by
        change b₂.program.base.map _ = _
        rw [halike.base]
        exact h.base
      code := (hsame.get? _).trans built.code
      derived := (asks.derived built.build).2
      fits := fits v hv
      opened := h.opened }

theorem Mirrors.advance_error (hs : s.Clear) (tidy : tc.Tidy T.conduct) (on : s.On b.world.disk)
    (h : Mirrors T tc catalog s source b.program b.world.disk r) {action : ActionId} {flag : String}
    (hflag : catalog.describe action = .ok flag)
    (fits : ∀ v, b.program.lineage.extend? action = .ok v → s.Fits v)
    (ha : Program.advance tc action flag r.current.cost b = .error e b') :
    r.step T tc s.stem catalog action = .error e ∧ s.On b'.world.disk ∧
      Mirrors T tc catalog s source b'.program b'.world.disk r := by
  have halike := Program.advance_of_error ha
  obtain ⟨m, hp, hm⟩ := h.state
  rcases Program.of_advance_error ha with ⟨fault, hv, rfl, rfl⟩ | ⟨v, hv, hrest⟩
  · rw [h.lineage] at hv
    exact ⟨by simp only [Cacheless.step, hflag, hv], on, h⟩
  have asks := h.asks hflag hv
  have stepped : r.step T tc s.stem catalog action = r.advance T tc s.stem flag v := by
    rw [h.lineage] at hv
    simp only [Cacheless.step, hflag, hv]
  rw [stepped]
  rcases hrest with hensure | ⟨_, b₁, hensure, hrest⟩
  · obtain ⟨hp₁, hensures⟩ := Program.ensureBuilt_error hs tidy hp on hensure
    obtain ⟨h₁, _, hfails⟩ := hm.ensures hs on asks (fits v hv) hensures
    refine ⟨?_, hensures.on hs on,
      h.of_alike halike ⟨m, hp₁, h₁⟩ (h.code_of_ensures hs hv hensures)⟩
    simp only [Cacheless.advance, hfails e rfl]
  obtain ⟨rfl, m₁, hp₁, hensures⟩ := Program.ensureBuilt_ok hs tidy hp on hensure
  have on₁ := hensures.on hs on
  obtain ⟨h₁, hbuilt, _⟩ := hm.ensures hs on asks (fits v hv) hensures
  obtain ⟨c, x, built⟩ := hbuilt rfl
  have hread : b₁.world.disk.read (s.artifacts v).executable = .ok x :=
    (on₁.leads_executable hs (fits v hv).toNameable).read_of_file built.executable
  have hcode := h.code_of_ensures hs hv hensures
  rcases hrest with hrun | ⟨a, fault, hrun, hreward, rfl⟩
  · have hreading := Program.reading_of_runMeasurement_error tidy.measure hread hrun
    rw [hp₁.name] at hreading
    obtain ⟨hcache, hsame, _⟩ := Program.runMeasurement_error tidy.measure hrun
    have hp₂ := hp₁.of_alike ((Program.alike_runMeasurement tc _ _).of_error hrun) hcache
    refine ⟨?_, on₁.of_changedOnly hs hsame nofun,
      h.of_alike halike ⟨m₁, hp₂, h₁.same hsame⟩ ((hsame.get? _).trans hcode)⟩
    simp only [Cacheless.advance, built.build, hreading]
  · have hreading := Program.reading_of_runMeasurement_ok tidy.measure hread hrun
    rw [hp₁.name] at hreading
    obtain ⟨hcache, hsame, _⟩ := Program.runMeasurement_ok tidy.measure hrun
    have hp₂ := hp₁.of_alike ((Program.alike_runMeasurement tc _ _).of_ok hrun) hcache
    refine ⟨?_, on₁.of_changedOnly hs hsame nofun,
      h.of_alike halike ⟨m₁, hp₂, h₁.same hsame⟩ ((hsame.get? _).trans hcode)⟩
    simp only [Cacheless.advance, built.build, hreading, hreward, hp.name]

theorem Mirrors.step_ok (hs : s.Clear) (tidy : tc.Tidy T.conduct) (on : s.On b.world.disk)
    (h : Mirrors T tc catalog s source b.program b.world.disk r) {action : ActionId}
    (fits : ∀ v flag, catalog.describe action = .ok flag →
      b.program.lineage.extend? action = .ok v → s.Fits v) {reward : Float}
    (hstep : Program.step tc catalog action b = .ok reward b') :
    ∃ r', r.step T tc s.stem catalog action = .ok (reward, r') ∧ s.On b'.world.disk ∧
      Mirrors T tc catalog s source b'.program b'.world.disk r' := by
  cases hflag : catalog.describe action with
  | error fault =>
    rw [Program.step_of_unknown tc hflag] at hstep
    cases hstep
  | ok flag =>
    rw [Program.step_of_known tc hflag, EStateM.bind_of_ok h.standingCost] at hstep
    obtain ⟨v, r', hv, hadvance, kept⟩ :=
      h.advance_ok hs tidy on hflag (fun v hv => fits v flag hflag hv) hstep
    exact ⟨r', by simp only [Cacheless.step, hflag, hv, hadvance], kept⟩

theorem Mirrors.step_error (hs : s.Clear) (tidy : tc.Tidy T.conduct) (on : s.On b.world.disk)
    (h : Mirrors T tc catalog s source b.program b.world.disk r) {action : ActionId}
    (fits : ∀ v flag, catalog.describe action = .ok flag →
      b.program.lineage.extend? action = .ok v → s.Fits v)
    (hstep : Program.step tc catalog action b = .error e b') :
    r.step T tc s.stem catalog action = .error e ∧ s.On b'.world.disk ∧
      Mirrors T tc catalog s source b'.program b'.world.disk r := by
  cases hflag : catalog.describe action with
  | error fault =>
    rw [Program.step_of_unknown tc hflag] at hstep
    cases hstep
    exact ⟨by simp only [Cacheless.step, hflag], on, h⟩
  | ok flag =>
    rw [Program.step_of_known tc hflag, EStateM.bind_of_ok h.standingCost] at hstep
    exact h.advance_error hs tidy on hflag (fun v hv => fits v flag hflag hv) hstep

/-! ## Sessions -/

/-- A session that shows what a cacheless environment shows, both running or both stopped. -/
inductive Refines (T : PureTools) (tc : Toolchain σ) (catalog : Catalog) (s : Site)
    (source : ByteArray) : Session σ → Option Cacheless → Prop where
  | running {w : World σ} {p : Program} {r : Cacheless} : s.On w.disk →
      Mirrors T tc catalog s source p w.disk r → Refines T tc catalog s source ⟨w, some p⟩ (some r)
  | stopped {w : World σ} {m : Manifest} : s.On w.disk → Restores T catalog s source m w.disk →
      Refines T tc catalog s source ⟨w, none⟩ none

/-- Events of a session that a cacheless environment follows: opening, resetting, and steps of one
catalog to variants whose names fit. Others may take away any file but the source, while the program
is at its base and measured. -/
def Followed (catalog : Catalog) (s : Site) : Event → Session σ → Prop
  | .open _, _ => True
  | .reset, _ => True
  | .step used action, x => used = catalog ∧
    ∀ v flag, Session.trial? (.step used action) x = some (v, flag) → s.Fits v
  | .edit file content, x => content = none ∧ file ≠ .code .base ∧
    ∃ p, x.program = some p ∧ p.lineage = .base ∧ p.stage = .measured
  | .build, _ => False
  | .measure, _ => False

variable {y : Session σ} {env : Option Cacheless} {event : Event} {events : List Event}

theorem Refines.report (h : Refines T tc catalog s source y env) (answer : Answer) :
    Session.report answer y = Cacheless.report answer env := by
  cases h with
  | stopped _ _ => rfl
  | @running w p r _ h =>
    obtain ⟨a, ha, hcurrent⟩ := Option.map_eq_some_iff.1 h.current
    obtain ⟨a₀, ha₀, hbase⟩ := Option.map_eq_some_iff.1 h.base
    simp only [Session.report, Cacheless.report, Option.map_some, Option.bind_some, h.lineage,
      Program.state?, Program.cost?, Program.baseCost?, ha, ha₀, ← hcurrent, ← hbase,
      Measurement.record]

/-- The answer and the rest of an event are those of the cacheless environment. -/
structure KeepsPace (T : PureTools) (tc : Toolchain σ) (catalog : Catalog) (s : Site)
    (source : ByteArray) (event : Event) (env : Option Cacheless) (answer : Answer)
    (y : Session σ) : Prop where
  answer : answer = (Cacheless.perform T tc s.stem source event env).1
  refines : Refines T tc catalog s source y (Cacheless.perform T tc s.stem source event env).2

theorem keepsPace_open (hs : s.Named) (tidy : tc.Tidy T.conduct) (fits : s.Fits .base)
    {age : Option Nat} (hy : Program.Finds s ⟨workDir, age⟩ y.world d source)
    (h : Restores T catalog s source m d) (env : Option Cacheless) :
    KeepsPace T tc catalog s source (.open age) env
      (Session.perform tc workDir s (.open age) y).1
      (Session.perform tc workDir s (.open age) y).2 := by
  have clear := hs.clear hy.on
  obtain ⟨m', hcurrent, h'⟩ := h.currentManifest hy.on
  have hopen := Program.open_of_finds hs hy tc
  rw [hcurrent] at hopen
  let b : Bench σ := ⟨{ y.world with disk := d },
    Program.fresh s.stem s.source (s.cache m') ⟨workDir, age⟩⟩
  simp only [Session.perform, hopen]
  cases hstart : Program.starting b.program (Program.measure tc >>= fun _ => pure ()) b.world with
  | ok p w =>
    obtain ⟨a, b', hmeasure, rfl⟩ := Program.starting_ok hstart
    obtain ⟨opened, on, mirrors⟩ :=
      restores_measure_ok (b := b) clear tidy hy.on ⟨rfl, rfl⟩ h' rfl rfl fits hmeasure
    refine ⟨?_, ?_⟩ <;> simp only [Cacheless.perform, opened]
    exact .running on mirrors
  | error e w =>
    obtain ⟨b', hmeasure, rfl⟩ := Program.starting_error hstart
    obtain ⟨opened, on, m₁, h₁⟩ :=
      restores_measure_error (b := b) clear tidy hy.on ⟨rfl, rfl⟩ h' rfl rfl fits hmeasure
    refine ⟨?_, ?_⟩ <;> simp only [Cacheless.perform, opened]
    exact .stopped on h₁

/-- One event of a session is one of the cacheless environment. -/
theorem keepsPace_perform (hs : s.Named) (tidy : tc.Tidy T.conduct)
    (directory : Path.join workDir s.stem = s.directory) (fits : s.Fits .base)
    (h : Refines T tc catalog s source y env) (hevent : Followed catalog s event y) :
    KeepsPace T tc catalog s source event env (Session.perform tc workDir s event y).1
      (Session.perform tc workDir s event y).2 := by
  cases event with
  | «open» age =>
    obtain ⟨on, m, hm⟩ : s.On y.world.disk ∧ ∃ m, Restores T catalog s source m y.world.disk := by
      cases h with
      | running on h =>
        obtain ⟨m, _, hm⟩ := h.state
        exact ⟨on, m, hm⟩
      | stopped on hm => exact ⟨on, _, hm⟩
    exact keepsPace_open hs tidy fits ⟨directory, on.source.isFile_iff.2 ⟨source, hm.source⟩,
      Disk.makeDirectories_of_directory on.directory, on, hm.source⟩ hm env
  | build => exact hevent.elim
  | measure => exact hevent.elim
  | reset =>
    cases h with
    | stopped on hm => exact ⟨rfl, .stopped on hm⟩
    | @running w p r on h =>
      obtain ⟨b', hreset, on', h'⟩ := Mirrors.reset (b := ⟨w, p⟩) (hs.clear on) tidy on h fits
      simp only [Session.perform, Session.operate, EStateM.bind_of_ok hreset]
      exact ⟨rfl, .running on' h'⟩
  | step used action =>
    obtain ⟨rfl, hfits⟩ := hevent
    cases h with
    | stopped on hm => exact ⟨rfl, .stopped on hm⟩
    | @running w p r on h =>
      have clear := hs.clear on
      have fits' (v : Variant) (flag : String) (hflag : used.describe action = .ok flag)
          (hv : p.lineage.extend? action = .ok v) : s.Fits v :=
        hfits v flag (Session.trial?_step rfl hflag hv)
      simp only [Session.perform, Session.operate]
      cases hstep : Program.step tc used action ⟨w, p⟩ with
      | ok reward b' =>
        obtain ⟨r', hr, on', h'⟩ :=
          Mirrors.step_ok (b := ⟨w, p⟩) clear tidy on h fits' hstep
        rw [EStateM.bind_of_ok hstep]
        refine ⟨?_, ?_⟩ <;> simp only [Cacheless.perform, hr]
        · rfl
        · exact .running on' h'
      | error e b' =>
        obtain ⟨hr, on', h'⟩ := Mirrors.step_error (b := ⟨w, p⟩) clear tidy on h fits' hstep
        rw [EStateM.bind_of_error hstep]
        refine ⟨?_, ?_⟩ <;> simp only [Cacheless.perform, hr]
        exact .running on' h'
  | edit file content =>
    obtain ⟨rfl, hfile, p, hp, home, _⟩ := hevent
    cases h with
    | stopped => cases hp
    | @running w p r on h =>
      cases hp
      have clear := hs.clear on
      obtain ⟨m, hat, hm⟩ := h.state
      have origin : (s.edit file none w.disk).get? s.origin = w.disk.get? s.origin :=
        (on.changedOnly_edit clear file none).same _ (Site.origin_ne_placeOf clear hfile)
      refine ⟨rfl, .running (on.edit clear file none) (h.of_alike (Program.Alike.refl p)
        ⟨m, hat, hm.of_gone (on.get?_edit_none clear file) origin⟩ ?_)⟩
      rw [← h.lineage, home]
      exact origin

theorem reports_of_refines (hs : s.Named) (tidy : tc.Tidy T.conduct)
    (directory : Path.join workDir s.stem = s.directory) (fits : s.Fits .base)
    (h : Refines T tc catalog s source y env)
    (followed : Session.Along tc workDir s (Followed catalog s) events y) :
    Session.reports tc workDir s events y =
      Cacheless.reports T tc s.stem source events env := by
  induction events generalizing y env with
  | nil => rfl
  | cons event events ih =>
    have hf := keepsPace_perform hs tidy directory fits h followed.1
    simp only [Session.reports, Cacheless.reports]
    rw [hf.refines.report, hf.answer, ih hf.refines followed.2]

/-- From the first time that a program is opened on, a session with deterministic tools and one
catalog reports what an environment without a cache reports. -/
theorem reports_eq_cacheless {w : World σ} (h : Session.Unopened s workDir w d source)
    (tidy : tc.Tidy T.conduct) (fits : s.Fits .base) (age : Option Nat)
    (followed : Session.Along tc workDir s (Followed catalog s) (.open age :: events) ⟨w, none⟩) :
    Session.reports tc workDir s (.open age :: events) ⟨w, none⟩ =
      Cacheless.reports T tc s.stem source (.open age :: events) none := by
  have empty : Restores T catalog s source (.empty (Digest.ofBytes source)) d :=
    ⟨Site.follows_empty _ _ _, rfl, .inl h.blank, h.source⟩
  have hf := keepsPace_open (y := ⟨w, none⟩) h.toNamed tidy fits (h.finds age) empty none
  simp only [Session.reports, Cacheless.reports]
  rw [hf.refines.report, hf.answer,
    reports_of_refines h.toNamed tidy h.directory fits hf.refines followed.2]

/-! A session in which artifacts and the manifest are taken away, and everything is made again. -/

/-- Tools that copy, but mark the code with the flag. -/
def marking : PureTools where
  transform flag code := .ok (code ++ flag.toUTF8)
  compile := .ok
  link := .ok
  measure executable := .ok (.ok s!"SYMVEC{executable.size} 5.0 0SYMVEC")

def pruned : List Event :=
  [.step Program.soloCatalog 0, .reset, .edit .manifest none,
    .edit (.code Session.soloVariant) none, .open none, .step Program.soloCatalog 0]

/-- Whether an event is one that a cacheless environment follows. -/
def isFollowed (catalog : Catalog) (s : Site) : Event → Session σ → Bool
  | .open _, _ => true
  | .reset, _ => true
  | .step used action, x => used.flags == catalog.flags &&
    (Session.trial? (.step used action) x).all fun tried => decide (s.Fits tried.1)
  | .edit file content, x => content.isNone && file != .code .base &&
    x.program.any fun p => p.lineage == .base && p.stage == .measured
  | .build, _ => false
  | .measure, _ => false

theorem followed_of_isFollowed (h : isFollowed catalog s event y) : Followed catalog s event y := by
  cases event with
  | «open» age => trivial
  | build => cases h
  | measure => cases h
  | reset => trivial
  | step used action =>
    simp only [isFollowed, Bool.and_eq_true, beq_iff_eq] at h
    obtain ⟨hflags, hfits⟩ := h
    refine ⟨by cases used; cases catalog; simp_all, fun v flag ht => ?_⟩
    rw [ht] at hfits
    exact of_decide_eq_true hfits
  | edit file content =>
    simp only [isFollowed, Bool.and_eq_true, Option.isNone_iff_eq_none, bne_iff_ne,
      Option.any_eq_true, beq_iff_eq] at h
    obtain ⟨⟨hcontent, hfile⟩, p, hp, home, stage⟩ := h
    exact ⟨hcontent, hfile, p, hp, home, stage⟩

/-- Whether a cacheless environment follows a run of events. -/
def areFollowed (tc : Toolchain σ) (workDir : String) (catalog : Catalog) (s : Site) :
    List Event → Session σ → Bool
  | [], _ => true
  | event :: events, x => isFollowed catalog s event x &&
    areFollowed tc workDir catalog s events (Session.perform tc workDir s event x).2

theorem along_of_areFollowed (h : areFollowed tc workDir catalog s events y) :
    Session.Along tc workDir s (Followed catalog s) events y := by
  induction events generalizing y with
  | nil => trivial
  | cons event events ih =>
    simp only [areFollowed, Bool.and_eq_true] at h
    exact ⟨followed_of_isFollowed h.1, ih h.2⟩

theorem areFollowed_pruned : areFollowed marking.toolchain "build" Program.soloCatalog
    Session.soloSite (.open none :: pruned) ⟨Session.soloWorld, none⟩ = true := by
  decide +kernel

theorem reports_eq_cacheless_pruned :
    Session.reports marking.toolchain "build" Session.soloSite (.open none :: pruned)
        ⟨Session.soloWorld, none⟩ =
      Cacheless.reports marking marking.toolchain "bench" Session.soloSource
        (.open none :: pruned) none :=
  reports_eq_cacheless Session.unopened_solo marking.tidy (by decide +kernel) none
    (along_of_areFollowed areFollowed_pruned)

end PassTuner
