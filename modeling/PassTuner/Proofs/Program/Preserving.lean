import PassTuner.Proofs.Program.Measuring

/-!
# What operations preserve

What is said of a program at a site is said of its manifest, its lineage and the disk. Building and
measuring preserve it as soon as asking for the base does and files that stay as they are do not
matter; what a step comes to is decided by what asking for its variant comes to.
-/

namespace PassTuner.Program

variable {σ : Type} {s : Site} {b b' : Bench σ} {e : EnvironmentError} {tc : Toolchain σ}
  {C : Conduct} {I : Manifest → Variant → Disk → Prop}

/-- Something holds of a program at a site. An unbuilt lineage is the base. -/
structure Holds (s : Site) (I : Manifest → Variant → Disk → Prop) (b : Bench σ) : Prop where
  on : s.On b.world.disk
  home : b.program.stage = .unbuilt → b.program.lineage = .base
  state : ∃ m, At s m b.program ∧ I m b.program.lineage b.world.disk

/-- Something that lasts while the base is built and measured with success. -/
structure Settling (C : Conduct) (s : Site) (I : Manifest → Variant → Disk → Prop) : Prop where
  quiet : ∀ {m u d d'}, I m u d → Disk.Same d d' → I m u d'
  built : ∀ {m d m' d'}, s.On d → I m .base d →
    s.Ensures C .base .base none m d (.ok ()) m' d' → I m' .base d'

/-- Something that lasts while the base is built and measured. -/
structure Lasting (C : Conduct) (s : Site) (I : Manifest → Variant → Disk → Prop) : Prop where
  quiet : ∀ {m u d d'}, I m u d → Disk.Same d d' → I m u d'
  base : ∀ {m d r m' d'}, s.On d → I m .base d → s.Ensures C .base .base none m d r m' d' →
    I m' .base d'

theorem Lasting.settling (hI : Lasting C s I) : Settling C s I := ⟨hI.quiet, hI.base⟩

theorem Holds.of_same (h : Holds s I b) (hs : s.Clear) (halike : Alike b.program b'.program)
    (hcache : b'.program.cache = b.program.cache)
    (hsame : Disk.Same b.world.disk b'.world.disk)
    (quiet : ∀ {m u d d'}, I m u d → Disk.Same d d' → I m u d') : Holds s I b' := by
  obtain ⟨m, hp, hm⟩ := h.state
  refine ⟨h.on.of_changedOnly hs hsame nofun, ?_, m, hp.of_alike halike hcache, ?_⟩
  · rw [halike.stage, halike.lineage]
    exact h.home
  · rw [halike.lineage]
    exact quiet hm hsame

theorem of_build_ok (hs : s.Clear) (tidy : tc.Tidy C) {m : Manifest} (hp : At s m b.program)
    (on : s.On b.world.disk) (stage : b.program.stage = .unbuilt)
    (home : b.program.lineage = .base) (h : build tc b = .ok () b') :
    b'.program.lineage = .base ∧ b'.program.stage = .built ∧ ∃ m', At s m' b'.program ∧
      s.Ensures C .base .base none m b.world.disk (.ok ()) m' b'.world.disk := by
  rw [build_of_unbuilt tc stage] at h
  obtain ⟨a, b₁, hensure, h⟩ := EStateM.of_bind_ok h
  have halike := (alike_ensureBuilt tc _ _).of_ok hensure
  obtain ⟨_, m', hp', hensures⟩ := ensureBuilt_ok hs tidy hp on hensure
  rw [home] at hensures
  cases h
  exact ⟨halike.lineage.trans home, rfl, m', ⟨hp'.cache, hp'.name⟩, hensures⟩

theorem of_build_error (hs : s.Clear) (tidy : tc.Tidy C) {m : Manifest} (hp : At s m b.program)
    (on : s.On b.world.disk) (stage : b.program.stage = .unbuilt)
    (home : b.program.lineage = .base) (h : build tc b = .error e b') :
    b'.program.lineage = .base ∧ At s m b'.program ∧
      s.Ensures C .base .base none m b.world.disk (.error e) m b'.world.disk := by
  rw [build_of_unbuilt tc stage] at h
  rcases EStateM.of_bind_error h with hensure | ⟨a, b₁, _, h⟩
  · have halike := (alike_ensureBuilt tc _ _).of_error hensure
    obtain ⟨hp', hensures⟩ := ensureBuilt_error hs tidy hp on hensure
    rw [home] at hensures
    exact ⟨halike.lineage.trans home, hp', hensures⟩
  · cases h

theorem holds_build_ok (hs : s.Clear) (tidy : tc.Tidy C) (hI : Settling C s I) (h : Holds s I b)
    (hb : build tc b = .ok () b') : Holds s I b' := by
  obtain ⟨m, hp, hm⟩ := h.state
  by_cases hstage : b.program.stage = .unbuilt
  · have hhome := h.home hstage
    obtain ⟨hlineage, _, m', hp', hensures⟩ := of_build_ok hs tidy hp h.on hstage hhome hb
    rw [hhome] at hm
    refine ⟨hensures.on hs h.on, fun _ => hlineage, m', hp', ?_⟩
    rw [hlineage]
    exact hI.built h.on hm hensures
  · rw [build_of_built tc hstage] at hb
    cases hb
    exact h

theorem holds_build_error (hs : s.Clear) (tidy : tc.Tidy C) (hI : Lasting C s I) (h : Holds s I b)
    (hb : build tc b = .error e b') : Holds s I b' := by
  obtain ⟨m, hp, hm⟩ := h.state
  by_cases hstage : b.program.stage = .unbuilt
  · have hhome := h.home hstage
    obtain ⟨hlineage, hp', hensures⟩ := of_build_error hs tidy hp h.on hstage hhome hb
    rw [hhome] at hm
    refine ⟨hensures.on hs h.on, fun _ => hlineage, m, hp', ?_⟩
    rw [hlineage]
    exact hI.base h.on hm hensures
  · rw [build_of_built tc hstage] at hb
    cases hb

theorem holds_measure_ok (hs : s.Clear) (tidy : tc.Tidy C) (hI : Settling C s I) (h : Holds s I b)
    {a : Measurement} (hm : measure tc b = .ok a b') : Holds s I b' := by
  obtain ⟨b₁, b₂, hb, hrun, rfl⟩ := of_measure_ok hm
  have h₁ := holds_build_ok hs tidy hI h hb
  obtain ⟨hcache, hsame, _⟩ := runMeasurement_ok tidy.measure hrun
  have h₂ := h₁.of_same hs ((alike_runMeasurement tc _ _).of_ok hrun) hcache hsame hI.quiet
  obtain ⟨m, hp, hm⟩ := h₂.state
  exact ⟨h₂.on, fun hbad => (by cases hbad), m, ⟨hp.cache, hp.name⟩, hm⟩

theorem holds_measure_error (hs : s.Clear) (tidy : tc.Tidy C) (hI : Lasting C s I)
    (h : Holds s I b) (hm : measure tc b = .error e b') : Holds s I b' := by
  rcases of_measure_error hm with hb | ⟨b₁, hb, hrun⟩
  · exact holds_build_error hs tidy hI h hb
  have h₁ := holds_build_ok hs tidy hI.settling h hb
  obtain ⟨hcache, hsame, _⟩ := runMeasurement_error tidy.measure hrun
  exact h₁.of_same hs ((alike_runMeasurement tc _ _).of_error hrun) hcache hsame hI.quiet

theorem holds_measure (hs : s.Clear) (tidy : tc.Tidy C) (hI : Lasting C s I) (h : Holds s I b) :
    Holds s I ((measure tc).after b) := by
  cases hm : measure tc b with
  | ok a b₁ =>
    rw [Work.after_of_ok hm]
    exact holds_measure_ok hs tidy hI.settling h hm
  | error e b₁ =>
    rw [Work.after_of_error hm]
    exact holds_measure_error hs tidy hI h hm

theorem holds_build (hs : s.Clear) (tidy : tc.Tidy C) (hI : Lasting C s I) (h : Holds s I b) :
    Holds s I ((build tc).after b) := by
  cases hb : build tc b with
  | ok _ b₁ =>
    rw [Work.after_of_ok hb]
    exact holds_build_ok hs tidy hI.settling h hb
  | error e b₁ =>
    rw [Work.after_of_error hb]
    exact holds_build_error hs tidy hI h hb

/-- The bench on which a base that is not fresh any more is measured again. -/
def restarted (b : Bench σ) : Bench σ :=
  ⟨{ b.world with clock := b.world.clock + 1 },
    { b.program with lineage := .base, current := none, stage := .unbuilt }⟩

theorem Holds.restarted (home : ∀ {m u d}, I m u d → I m .base d) (h : Holds s I b) :
    Holds s I (restarted b) := by
  obtain ⟨m, hp, hm⟩ := h.state
  exact ⟨h.on, fun _ => rfl, m, ⟨hp.cache, hp.name⟩, home hm⟩

theorem Holds.restored (home : ∀ {m u d}, I m u d → I m .base d) (h : Holds s I b) :
    Holds s I ⟨{ b.world with clock := b.world.clock + 1 },
      { b.program with lineage := .base, current := b.program.base, stage := .measured }⟩ := by
  obtain ⟨m, hp, hm⟩ := h.state
  exact ⟨h.on, fun hbad => (by cases hbad), m, ⟨hp.cache, hp.name⟩, home hm⟩

theorem holds_reset_ok (hs : s.Clear) (tidy : tc.Tidy C) (hI : Settling C s I)
    (home : ∀ {m u d}, I m u d → I m .base d) (h : Holds s I b) (hr : reset tc b = .ok () b') :
    Holds s I b' := by
  cases hfresh : baseIsFresh b.program b.world.clock with
  | true =>
    rw [reset_of_fresh tc hfresh] at hr
    cases hr
    exact h.restored home
  | false =>
    rw [reset_of_stale tc hfresh] at hr
    obtain ⟨a, b₁, hmeasure, hr⟩ := EStateM.of_bind_ok hr
    cases hr
    exact holds_measure_ok hs tidy hI (h.restarted home) hmeasure

theorem of_reset_error (hr : reset tc b = .error e b') :
    measure tc (restarted b) = .error e b' := by
  cases hfresh : baseIsFresh b.program b.world.clock with
  | true =>
    rw [reset_of_fresh tc hfresh] at hr
    cases hr
  | false =>
    rw [reset_of_stale tc hfresh] at hr
    rcases EStateM.of_bind_error hr with hmeasure | ⟨a, b₁, _, hr⟩
    · exact hmeasure
    · cases hr

theorem holds_reset (hs : s.Clear) (tidy : tc.Tidy C) (hI : Lasting C s I)
    (home : ∀ {m u d}, I m u d → I m .base d) (h : Holds s I b) :
    Holds s I ((reset tc).after b) := by
  cases hr : reset tc b with
  | ok _ b₁ =>
    rw [Work.after_of_ok hr]
    exact holds_reset_ok hs tidy hI.settling home h hr
  | error e b₁ =>
    rw [Work.after_of_error hr]
    exact holds_measure_error hs tidy hI (h.restarted home) (of_reset_error hr)

/-! ## Steps -/

/-- Once the variant of an advance is built, neither the cache nor the disk changes any more. -/
theorem after_advance (watches : Tool.Watches C.measure tc.measure) {action : ActionId}
    {flag : String} {v : Variant} {a : Artifacts} (hv : b.program.lineage.extend? action = .ok v)
    (hensure : ensureBuilt tc v (some flag) b = .ok a b') (before : Float) :
    ((advance tc action flag before).after b).program.cache = b'.program.cache ∧
      Disk.Same b'.world.disk ((advance tc action flag before).after b).world.disk := by
  cases ha : advance tc action flag before b with
  | ok reward b₂ =>
    rw [Work.after_of_ok ha]
    obtain ⟨v', a', b₁, a₁, b₂, hv', hensure', hrun, _, rfl⟩ := of_advance_ok ha
    rw [hv] at hv'
    cases hv'
    rw [hensure] at hensure'
    cases hensure'
    obtain ⟨hcache, hsame, _⟩ := runMeasurement_ok watches hrun
    exact ⟨hcache, hsame⟩
  | error e b₂ =>
    rw [Work.after_of_error ha]
    rcases of_advance_error ha with ⟨_, hv', _⟩ | ⟨v', hv', hensure' | ⟨a', b₁, hensure', hrun⟩⟩
    · rw [hv] at hv'
      cases hv'
    · rw [hv] at hv'
      cases hv'
      rw [hensure] at hensure'
      cases hensure'
    · rw [hv] at hv'
      cases hv'
      rw [hensure] at hensure'
      cases hensure'
      rcases hrun with hrun | ⟨a₁, _, hrun, _⟩
      · obtain ⟨hcache, hsame, _⟩ := runMeasurement_error watches hrun
        exact ⟨hcache, hsame⟩
      · obtain ⟨hcache, hsame, _⟩ := runMeasurement_ok watches hrun
        exact ⟨hcache, hsame⟩

/-- What building the variant of a step has to come to. -/
structure Gains (tc : Toolchain σ) (C : Conduct) (s : Site)
    (I : Manifest → Variant → Disk → Prop) (action : ActionId) (flag : String) (b : Bench σ) :
    Prop where
  built : ∀ {m v a b' m'}, At s m b.program → I m b.program.lineage b.world.disk →
    b.program.lineage.extend? action = .ok v → ensureBuilt tc v (some flag) b = .ok a b' →
    s.Ensures C b.program.lineage v (some flag) m b.world.disk (.ok ()) m' b'.world.disk →
    I m' b.program.lineage b'.world.disk ∧ I m' v b'.world.disk

/-- What asking for the variant of a step has to come to. -/
structure Tries (tc : Toolchain σ) (C : Conduct) (s : Site)
    (I : Manifest → Variant → Disk → Prop) (action : ActionId) (flag : String) (b : Bench σ) :
    Prop extends Gains tc C s I action flag b where
  failed : ∀ {m v e d}, At s m b.program → I m b.program.lineage b.world.disk →
    b.program.lineage.extend? action = .ok v →
    s.Ensures C b.program.lineage v (some flag) m b.world.disk (.error e) m d →
    I m b.program.lineage d

theorem Gains.holds_of_ensured {action : ActionId} {flag : String} {v : Variant} {a : Artifacts}
    (gains : Gains tc C s I action flag b) (hs : s.Clear) (tidy : tc.Tidy C) (h : Holds s I b)
    (hv : b.program.lineage.extend? action = .ok v)
    (hensure : ensureBuilt tc v (some flag) b = .ok a b') :
    Holds s I b' ∧ ∃ m', At s m' b'.program ∧ I m' v b'.world.disk := by
  obtain ⟨m, hp, hm⟩ := h.state
  have halike := (alike_ensureBuilt tc _ _).of_ok hensure
  obtain ⟨_, m', hp', hensures⟩ := ensureBuilt_ok hs tidy hp h.on hensure
  obtain ⟨hstays, hmoves⟩ := gains.built hp hm hv hensure hensures
  refine ⟨⟨hensures.on hs h.on, ?_, m', hp', ?_⟩, m', hp', hmoves⟩
  · rw [halike.stage, halike.lineage]
    exact h.home
  · rw [halike.lineage]
    exact hstays

theorem holds_advance_error (hs : s.Clear) (tidy : tc.Tidy C) {action : ActionId} {flag : String}
    {before : Float} (quiet : ∀ {m u d d'}, I m u d → Disk.Same d d' → I m u d')
    (tries : Tries tc C s I action flag b) (h : Holds s I b)
    (ha : advance tc action flag before b = .error e b') : Holds s I b' := by
  rcases of_advance_error ha with ⟨_, _, _, rfl⟩ | ⟨v, hv, hensure | ⟨a, b₁, hensure, ha⟩⟩
  · exact h
  · obtain ⟨m, hp, hm⟩ := h.state
    have halike := (alike_ensureBuilt tc _ _).of_error hensure
    obtain ⟨hp', hensures⟩ := ensureBuilt_error hs tidy hp h.on hensure
    refine ⟨hensures.on hs h.on, ?_, m, hp', ?_⟩
    · rw [halike.stage, halike.lineage]
      exact h.home
    · rw [halike.lineage]
      exact tries.failed hp hm hv hensures
  have h₁ := (tries.holds_of_ensured hs tidy h hv hensure).1
  rcases ha with hrun | ⟨a', _, hrun, _⟩
  · obtain ⟨hcache, hsame, _⟩ := runMeasurement_error tidy.measure hrun
    exact h₁.of_same hs ((alike_runMeasurement tc _ _).of_error hrun) hcache hsame quiet
  · obtain ⟨hcache, hsame, _⟩ := runMeasurement_ok tidy.measure hrun
    exact h₁.of_same hs ((alike_runMeasurement tc _ _).of_ok hrun) hcache hsame quiet

theorem holds_advance_ok (hs : s.Clear) (tidy : tc.Tidy C) {action : ActionId} {flag : String}
    {before reward : Float} (quiet : ∀ {m u d d'}, I m u d → Disk.Same d d' → I m u d')
    (gains : Gains tc C s I action flag b) (h : Holds s I b)
    (ha : advance tc action flag before b = .ok reward b') : Holds s I b' := by
  obtain ⟨v, a, b₁, a', b₂, hv, hensure, hrun, _, rfl⟩ := of_advance_ok ha
  obtain ⟨h₁, m', hp', hm'⟩ := gains.holds_of_ensured hs tidy h hv hensure
  obtain ⟨hcache, hsame, _⟩ := runMeasurement_ok tidy.measure hrun
  have h₂ := h₁.of_same hs ((alike_runMeasurement tc _ _).of_ok hrun) hcache hsame quiet
  have hp₂ := hp'.of_alike ((alike_runMeasurement tc _ _).of_ok hrun) hcache
  exact ⟨h₂.on, fun hbad => (by cases hbad), m', ⟨hp₂.cache, hp₂.name⟩, quiet hm' hsame⟩

theorem holds_standingCost (hs : s.Clear) (tidy : tc.Tidy C) (hI : Settling C s I) {cost : Float}
    (h : Holds s I b) (hc : standingCost tc b = .ok cost b') : Holds s I b' := by
  rcases of_standingCost_ok hc with ⟨_, rfl⟩ | ⟨_, a, hm, _⟩
  · exact h
  · exact holds_measure_ok hs tidy hI h hm

/-- A step that succeeds preserves what building its variant preserves. -/
theorem holds_step_ok (hs : s.Clear) (tidy : tc.Tidy C) {catalog : Catalog} {action : ActionId}
    {reward : Float} (hI : Settling C s I)
    (gains : ∀ flag b₁, Holds s I b₁ → Gains tc C s I action flag b₁) (h : Holds s I b)
    (hstep : step tc catalog action b = .ok reward b') : Holds s I b' := by
  cases hd : catalog.describe action with
  | error fault =>
    rw [step_of_unknown tc hd] at hstep
    cases hstep
  | ok flag =>
    rw [step_of_known tc hd] at hstep
    obtain ⟨cost, b₁, hc, ha⟩ := EStateM.of_bind_ok hstep
    have h₁ := holds_standingCost hs tidy hI h hc
    exact holds_advance_ok hs tidy hI.quiet (gains flag b₁ h₁) h₁ ha

/-- A step preserves what trying its variant preserves. -/
theorem holds_step (hs : s.Clear) (tidy : tc.Tidy C) {catalog : Catalog} {action : ActionId}
    (hI : Lasting C s I)
    (tries : ∀ flag cost b₁, catalog.describe action = .ok flag → standingCost tc b = .ok cost b₁ →
      Tries tc C s I action flag b₁)
    (h : Holds s I b) : Holds s I ((step tc catalog action).after b) := by
  cases hd : catalog.describe action with
  | error fault =>
    rw [Work.after_of_error (step_of_unknown tc hd)]
    exact h
  | ok flag =>
    rw [step_of_known tc hd]
    cases hc : standingCost tc b with
    | error e b₁ =>
      rw [Work.after_of_error (EStateM.bind_of_error hc _)]
      exact holds_measure_error hs tidy hI h (of_standingCost_error hc).2
    | ok cost b₁ =>
      have h₁ := holds_standingCost hs tidy hI.settling h hc
      have htries := tries flag cost b₁ hd hc
      cases ha : advance tc action flag cost b₁ with
      | error e b₂ =>
        rw [Work.after_of_error ((EStateM.bind_of_ok hc _).trans ha)]
        exact holds_advance_error hs tidy hI.quiet htries h₁ ha
      | ok reward b₂ =>
        rw [Work.after_of_ok ((EStateM.bind_of_ok hc _).trans ha)]
        exact holds_advance_ok hs tidy hI.quiet htries.toGains h₁ ha

end PassTuner.Program
