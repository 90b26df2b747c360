import PassTuner.Proofs.Session.Vocabulary

/-!
# What the measurements of a program are about

A program carries a measurement of its base and one of its lineage. Main statement: through all
sessions on an unchanged source both are what was read of an answer that the tools may give for an
executable that was made with flags that were tried; and a lineage away from the base was measured
with a cost that is one.
-/

namespace PassTuner

/-- A measurement of an executable that was made with flags its variant was tried with. -/
def Reported {σ : Type} (tc : Toolchain σ) (C : Conduct) (H : Variant → String → Prop)
    (source : ByteArray) (v : Variant) (a : Measurement) : Prop :=
  ∃ flags c e o record, Tried H v flags ∧ C.Derived source flags c ∧ C.Assembled c e ∧
    C.measure e (.ok o) ∧ Program.readMeasurement tc o = .ok record ∧ a.state = record.state ∧
    a.cost = record.cost

/-- The measurements of a program are about its base and its lineage. -/
structure Supported (R : Variant → Measurement → Prop) (p : Program) : Prop where
  base : ∃ a, p.base = some a ∧ R .base a
  current : ∀ a, p.current = some a → R p.lineage a
  paid : p.lineage ≠ .base → p.current.isSome ∧ ∃ a, R p.lineage a ∧ Cost.isValid a.cost

variable {σ : Type} {s : Site} {tc : Toolchain σ} {workDir : String} {C : Conduct}
  {H : Variant → String → Prop} {R : Variant → Measurement → Prop} {source : ByteArray}
  {b b' : Bench σ} {p q : Program} {a : Measurement}

namespace Supported

theorem of_unmeasured (h : Supported R p) (unmeasured : p.Unmeasured q) : Supported R q where
  base := by rw [unmeasured.base]; exact h.base
  current := by rw [unmeasured.current, unmeasured.lineage]; exact h.current
  paid := by rw [unmeasured.current, unmeasured.lineage]; exact h.paid

theorem of_measured (h : Supported R p) (measured : p.MeasuredAs a q) (reported : R p.lineage a) :
    Supported R q where
  base := by
    rw [measured.base]
    split
    · rename_i home
      exact ⟨a, rfl, Variant.isBase_iff.1 home ▸ reported⟩
    · exact h.base
  current := by
    rw [measured.current, measured.lineage]
    rintro _ ⟨⟩
    exact reported
  paid := by
    rw [measured.current, measured.lineage]
    exact fun away => ⟨rfl, (h.paid away).2⟩

/-- A program that went back to its base. -/
theorem homed (h : Supported R p) {stage : Stage} {current : Option Measurement}
    (back : current = none ∨ current = p.base) :
    Supported R { p with lineage := .base, current, stage } where
  base := h.base
  current := by
    obtain ⟨a, hbase, reported⟩ := h.base
    rintro a' rfl
    rcases back with back | back
    · cases back
    · rw [hbase] at back
      cases back
      exact reported
  paid away := absurd rfl away

end Supported

/-! ## Operations -/

/-- What is measured of the lineage is reported of it. -/
theorem Kept.reported_of_run (hs : s.Clear) (tidy : tc.Tidy C)
    (h : Program.Holds s (Settled H C s source) b)
    (hrun : Program.runMeasurement tc b.program.lineage
      (b.program.cache.artifacts b.program.lineage).executable b = .ok a b') :
    Reported tc C H source b.program.lineage a := by
  obtain ⟨m, hat, hm⟩ := h.state
  obtain ⟨flags, c, e, htried, hderived, hassembled, _, hread⟩ := hm.kept.reads hs h.on hm.lineage
  obtain ⟨_, _, o, record, _, hrecord, hstate, hcost, _, hanswer⟩ :=
    Program.runMeasurement_ok tidy.measure hrun
  rw [hat.cache, Site.artifacts_cache] at hanswer
  exact ⟨flags, c, e, o, record, htried, hderived, hassembled, hanswer e hread, hrecord, hstate,
    hcost⟩

theorem Kept.supported_measure_ok (hs : s.Named) (tidy : tc.Tidy C)
    (h : Program.Holds s (Settled H C s source) b)
    (supported : Supported (Reported tc C H source) b.program)
    (hm : Program.measure tc b = .ok a b') : Supported (Reported tc C H source) b'.program := by
  refine supported.of_measured (Program.measure_of_ok hm) ?_
  obtain ⟨b₁, b₂, hb, hrun, _⟩ := Program.of_measure_ok hm
  have clear := hs.clear h.on
  have h₁ := Program.holds_build_ok clear tidy (invariant_kept hs H C source).settling h hb
  have hlineage : b₁.program.lineage = b.program.lineage :=
    ((Program.build_unmeasured tc).of_ok hb).lineage
  rw [← hlineage]
  exact Kept.reported_of_run clear tidy h₁ hrun

theorem Kept.supported_measure (hs : s.Named) (tidy : tc.Tidy C)
    (h : Program.Holds s (Settled H C s source) b)
    (supported : Supported (Reported tc C H source) b.program) :
    Supported (Reported tc C H source) ((Program.measure tc).after b).program := by
  cases hm : Program.measure tc b with
  | ok a b₁ =>
    rw [Work.after_of_ok hm]
    exact Kept.supported_measure_ok hs tidy h supported hm
  | error e b₁ =>
    rw [Work.after_of_error hm]
    exact supported.of_unmeasured (Program.measure_of_error hm)

theorem Kept.supported_reset (hs : s.Named) (tidy : tc.Tidy C)
    (h : Program.Holds s (Settled H C s source) b)
    (supported : Supported (Reported tc C H source) b.program) :
    Supported (Reported tc C H source) ((Program.reset tc).after b).program := by
  cases hfresh : Program.baseIsFresh b.program b.world.clock with
  | true =>
    rw [Work.after_of_ok (Program.reset_of_fresh tc hfresh)]
    exact supported.homed (.inr rfl)
  | false =>
    have measured := Kept.supported_measure hs tidy
      (h.restarted fun hm => (invariant_kept hs H C source).home hm)
      (supported.homed (.inl rfl) : Supported _ (Program.restarted b).program)
    have hr := Program.reset_of_stale tc hfresh
    cases hm : Program.measure tc (Program.restarted b) with
    | ok a b₁ =>
      rw [Work.after_of_ok hm] at measured
      rwa [Work.after_of_ok (hr.trans (EStateM.bind_of_ok hm _))]
    | error e b₁ =>
      rw [Work.after_of_error hm] at measured
      rwa [Work.after_of_error (hr.trans (EStateM.bind_of_error hm _))]

variable {catalog : Catalog} {action : ActionId} {flag : String} {before reward : Float}

/-- An advance that succeeds has measured a cost. -/
theorem Kept.supported_advance_ok (hs : s.Clear) (tidy : tc.Tidy C)
    (h : Program.Holds s (Settled H C s source) b)
    (supported : Supported (Reported tc C H source) b.program)
    (hH : ∀ v, b.program.lineage.extend? action = .ok v → H v flag)
    (ha : Program.advance tc action flag before b = .ok reward b') :
    Supported (Reported tc C H source) b'.program := by
  obtain ⟨flags, c, e, htried, hderived, hassembled, _, o, record, hanswer, hrecord,
    hstate, hcost⟩ :=
    Kept.measures_of_advance hs tidy h hH ha
  have hbase := (Program.advance_of_ok ha).base
  obtain ⟨v, _, b₁, a, b₂, _, _, _, hreward, rfl⟩ := Program.of_advance_ok ha
  have reported : Reported tc C H source v a :=
    ⟨flags, c, e, o, record, htried, hderived, hassembled, hanswer, hrecord,
      Option.some.inj hstate, Option.some.inj hcost⟩
  refine ⟨by rw [hbase]; exact supported.base, ?_, fun _ => ⟨rfl, a, reported, ?_⟩⟩
  · rintro _ ⟨⟩
    exact reported
  · unfold Cost.reward Cost.compare at hreward
    split at hreward
    · rename_i valid
      exact (Bool.and_eq_true ..).mp valid |>.2
    · cases hreward

theorem Kept.supported_step (hs : s.Named) (tidy : tc.Tidy C)
    (h : Program.Holds s (Settled H C s source) b)
    (supported : Supported (Reported tc C H source) b.program)
    (hH : ∀ v flag, catalog.describe action = .ok flag →
      b.program.lineage.extend? action = .ok v → H v flag) :
    Supported (Reported tc C H source) ((Program.step tc catalog action).after b).program := by
  cases hd : catalog.describe action with
  | error fault =>
    rw [Work.after_of_error (Program.step_of_unknown tc hd)]
    exact supported
  | ok flag =>
    rw [Program.step_of_known tc hd]
    cases hc : Program.standingCost tc b with
    | error e b₁ =>
      rw [Work.after_of_error (EStateM.bind_of_error hc _)]
      exact supported.of_unmeasured
        (Program.measure_of_error (Program.of_standingCost_error hc).2)
    | ok cost b₁ =>
      have hb := (invariant_kept hs H C source).settling
      have clear := hs.clear h.on
      have h₁ := Program.holds_standingCost clear tidy hb h hc
      have supported₁ : Supported (Reported tc C H source) b₁.program := by
        rcases Program.of_standingCost_ok hc with ⟨_, rfl⟩ | ⟨_, a, hm, _⟩
        · exact supported
        · exact Kept.supported_measure_ok hs tidy h supported hm
      cases ha : Program.advance tc action flag cost b₁ with
      | error e b₂ =>
        rw [Work.after_of_error ((EStateM.bind_of_ok hc _).trans ha)]
        exact supported₁.of_unmeasured (Program.advance_of_error ha).unmeasured
      | ok reward b₂ =>
        rw [Work.after_of_ok ((EStateM.bind_of_ok hc _).trans ha)]
        refine Kept.supported_advance_ok clear tidy h₁ supported₁ (fun v hv => hH v flag hd ?_) ha
        rwa [Program.lineage_of_standingCost hc] at hv

/-- A program that was opened has one measurement, of its base. -/
theorem Kept.supported_open {age : Option Nat} {w w' : World σ} {d : Disk} {c : ByteArray}
    (hs : s.Named) (tidy : tc.Tidy C) (hx : Program.Finds s ⟨workDir, age⟩ w d c)
    (hD : ∃ m, Kept H C s source m d)
    (ho : Program.open tc ⟨workDir, age⟩ s.source w = .ok p w') :
    Supported (Reported tc C H source) p := by
  rw [Program.open_of_finds hs hx] at ho
  cases hcurrent : Cache.currentManifest d s.directory (Digest.ofBytes c) with
  | error e => simp [hcurrent] at ho
  | ok m =>
    simp only [hcurrent] at ho
    obtain ⟨a, b, hm, rfl⟩ := Program.starting_ok ho
    obtain ⟨b₁, b₂, hb, hrun, _⟩ := Program.of_measure_ok hm
    obtain ⟨home, h₁⟩ := Program.holds_build_opened hs tidy
      (invariant_kept hs H C source).toOpens hx hD hcurrent hb
    have reported := Kept.reported_of_run (hs.clear h₁.on) tidy h₁ hrun
    rw [home] at reported
    have measured : Program.MeasuredAs a _ p := Program.measure_of_ok hm
    refine ⟨⟨a, measured.base, reported⟩, ?_, fun away => absurd measured.lineage away⟩
    rw [measured.current, measured.lineage]
    rintro _ ⟨⟩
    exact reported

/-! ## Sessions -/

variable {x : Session σ} {event : Event} {events : List Event}

/-- The measurements of the open program are about what it was made with. -/
def Session.Supports (tc : Toolchain σ) (C : Conduct) (H : Variant → String → Prop)
    (source : ByteArray) (x : Session σ) : Prop :=
  ∀ p, x.program = some p → Supported (Reported tc C H source) p

theorem Session.supports_operate {α : Type} {work : Work σ α} {answer : α → Answer}
    (h : x.Supports tc C H source)
    (hwork : ∀ p, x.program = some p → Supported (Reported tc C H source) p →
      Supported (Reported tc C H source) (work.after ⟨x.world, p⟩).program) :
    (x.operate (work >>= fun a => pure (answer a))).2.Supports tc C H source := by
  cases hp : x.program with
  | none => rwa [Session.operate_of_none hp]
  | some p =>
    rw [Session.operate_of_some hp]
    rintro _ ⟨⟩
    exact hwork p hp (h p hp)

theorem Session.supports_perform (hs : s.Named) (tidy : tc.Tidy C)
    (directory : Path.join workDir s.stem = s.directory)
    (hx : x.Keeps s (fun d => ∃ m, Kept H C s source m d) (Settled H C s source))
    (h : x.Supports tc C H source)
    (hH : ∀ v flag, Session.trial? event x = some (v, flag) → H v flag) :
    (Session.perform tc workDir s event x).2.Supports tc C H source := by
  cases event with
  | «open» age =>
    simp only [Session.perform]
    cases ho : Program.open tc ⟨workDir, age⟩ s.source x.world with
    | error e w => rintro _ ⟨⟩
    | ok p w =>
      rintro _ ⟨⟩
      have file := (Program.valid_of_open_ok ho).2.1
      obtain ⟨c, hc⟩ := hx.on.source.isFile_iff.1 file
      have made := Disk.makeDirectories_of_directory hx.on.directory
      exact Kept.supported_open hs tidy ⟨directory, file, made, hx.on, hc⟩
        (hx.disk (invariant_kept hs H C source)) ho
  | build =>
    exact Session.supports_operate h fun p hp supported =>
      supported.of_unmeasured (Program.build_unmeasured tc ⟨x.world, p⟩)
  | measure =>
    exact Session.supports_operate h fun p hp supported =>
      Kept.supported_measure hs tidy (hx.of_some hp) supported
  | reset =>
    exact Session.supports_operate h fun p hp supported =>
      Kept.supported_reset hs tidy (hx.of_some hp) supported
  | step catalog action =>
    refine Session.supports_operate h fun p hp supported =>
      Kept.supported_step hs tidy (hx.of_some hp) supported fun v flag hd hv => hH v flag ?_
    exact Session.trial?_step hp hd hv
  | edit file content => exact h

theorem Session.supports_run (hs : s.Named) (tidy : tc.Tidy C)
    (directory : Path.join workDir s.stem = s.directory)
    (hx : x.Keeps s (fun d => ∃ m, Kept H C s source m d) (Settled H C s source))
    (h : x.Supports tc C H source) (spare : ∀ event ∈ events, event.SparesFiles)
    (hH : ∀ v flag, (v, flag) ∈ Session.trials tc workDir s events x → H v flag) :
    (Session.run tc workDir s events x).Supports tc C H source := by
  induction events generalizing x with
  | nil => exact h
  | cons event events ih =>
    obtain ⟨first, others⟩ := List.forall_mem_cons.1 spare
    have now : ∀ v flag, Session.trial? event x = some (v, flag) → H v flag := fun v flag ht =>
      hH v flag (List.mem_append_left _ (by rw [ht]; exact List.mem_singleton_self _))
    exact ih (Session.keeps_perform hs tidy (invariant_kept hs H C source) directory hx
      (harmless_of_trial hs first now)) (Session.supports_perform hs tidy directory hx h now) others
      fun v flag ht => hH v flag (List.mem_append_right _ ht)

/-- Through all sessions on an unchanged source, the measurements of a program are about what flags
that were tried make of its base and its lineage. -/
theorem supported_of_sessions {w : World σ} {d : Disk} (h : Session.Unopened s workDir w d source)
    (tidy : tc.Tidy C) (age : Option Nat) (spare : ∀ event ∈ events, event.SparesFiles)
    (hH : ∀ v flag, (v, flag) ∈ Session.trials tc workDir s (.open age :: events) ⟨w, none⟩ →
      H v flag)
    (hp : (Session.run tc workDir s (.open age :: events) ⟨w, none⟩).program = some p) :
    Supported (Reported tc C H source) p := by
  have hD : ∃ m, Kept H C s source m d := ⟨_, kept_of_unopened h H C⟩
  have opened := Session.keeps_open (x := ⟨w, none⟩) h.toNamed tidy
    (invariant_kept h.toNamed H C source) (h.finds age) hD
  refine Session.supports_run h.toNamed tidy h.directory opened ?_ spare hH p hp
  intro q hq
  simp only [Session.perform] at hq
  cases ho : Program.open tc ⟨workDir, age⟩ s.source w with
  | error e w₁ =>
    rw [ho] at hq
    cases hq
  | ok p₁ w₁ =>
    rw [ho] at hq
    cases hq
    exact Kept.supported_open h.toNamed tidy (h.finds age) hD ho

end PassTuner
