import PassTuner.Proofs.Program.Failing
import PassTuner.Proofs.Program.Opening

/-!
# When operations report corruption

What tools have written can always be entered, whatever it is. So an operation on a program reports
corruption only where a look-up does, or where the base is asked for and its source is gone: as long
as no look-up reports corruption, no operation does.
-/

namespace PassTuner.Program

open EnvironmentError Work

variable {σ : Type} {s : Site} {m : Manifest} {v : Variant} {b b' : Bench σ}
  {e : EnvironmentError} {tc : Toolchain σ} {C : Conduct} {flag : Option String}
  {I : Manifest → Variant → Disk → Prop}

theorem incidental_of_assemble (hs : s.Clear) (tidy : tc.Tidy C) (hp : At s m b.program)
    (hd : s.Scratched b.world.disk) (h : assemble tc v s.objectPath b = .error e b') :
    e.Incidental := by
  have demanded (t : Tool σ ToolOutput) :
      Fails Incidental (Work.demand t (.buildFailed s.stem v)) :=
    fails_demand (fun _ => ⟨nofun, nofun⟩) t fun _ => ⟨nofun, nofun⟩
  rcases of_assemble_error hs tidy hp hd h with hcompile | ⟨_, _, _, _, hlink⟩
  · exact demanded _ _ _ _ hcompile
  · exact demanded _ _ _ _ hlink

theorem incidental_of_assembleAside (hs : s.Clear) (tidy : tc.Tidy C) (hp : At s m b.program)
    (hd : s.On b.world.disk) (h : assembleAside tc v s.stem b = .error e b') :
    e.Incidental := by
  rw [assembleAside, withScratch_eq _ hp hd] at h
  by_cases hshort : Site.Short s.directory s.scratch
  · rw [hd.makeDirectory_short hs hshort] at h
    let b₀ := withDisk b (b.world.disk.put s.scratchPlace .directory)
    change Work.cleaning _ (assemble tc v s.objectPath) b₀ = _ at h
    rw [cleaning_eq] at h
    cases hassemble : assemble tc v s.objectPath b₀ with
    | ok _ b₁ => simp [hassemble] at h
    | error e' b₁ =>
      simp only [hassemble] at h
      cases h
      exact incidental_of_assemble (b := b₀) hs tidy hp (hd.scratched hs hshort) hassemble
  · rw [hd.makeDirectory_long hs hshort] at h
    cases h
    exact ⟨by simp [EnvironmentError.Material], by simp [EnvironmentError.Corrupted]⟩

/-- A rebuild reports no corruption as long as the code is there that it needs. -/
theorem uncorrupted_of_rebuild (hs : s.Clear) (tidy : tc.Tidy C) (hp : At s m b.program)
    (hd : s.On b.world.disk)
    (coded : flag = none → b.world.disk.isFile (s.artifacts v).ir)
    (h : rebuild tc v flag b = .error e b') : ¬e.Corrupted := by
  cases flag with
  | some flag =>
    rw [rebuild_some, hp.name] at h
    rcases EStateM.of_bind_error h with htransform | ⟨_, b₁, htransform, h⟩
    · exact (fails_transformInto tc v flag _ _ _ htransform).uncorrupted
    obtain ⟨hp₁, hc₁, _⟩ := transformInto_ok hs tidy hp hd htransform
    have hd₁ : s.On b₁.world.disk := hd.of_changedOnly hs hc₁ fun p hp => hp ▸ .code v
    rcases EStateM.of_bind_error h with hassemble | ⟨_, b₂, _, h⟩
    · exact (incidental_of_assembleAside hs tidy hp₁ hd₁ hassemble).uncorrupted
    · cases h
  | none =>
    rw [rebuild_none, hp.name, hp.cache, Site.artifacts_cache, if_pos (coded rfl)] at h
    rcases EStateM.of_bind_error h with hassemble | ⟨_, b₂, _, h⟩
    · exact (incidental_of_assembleAside hs tidy hp hd hassemble).uncorrupted
    · cases h

/-- Nothing that a program would look up is corrupted, and its source is there. -/
structure Readable (s : Site) (m : Manifest) (d : Disk) : Prop where
  lookup : ∀ v e, (s.cache m).lookup d v ≠ .error e
  source : d.isFile s.source

theorem uncorrupted_of_ensureBuilt (hs : s.Clear) (tidy : tc.Tidy C) (hp : At s m b.program)
    (hd : s.On b.world.disk) (hm : Readable s m b.world.disk) (home : flag = none → v = .base)
    (h : ensureBuilt tc v flag b = .error e b') : ¬e.Corrupted := by
  rw [ensureBuilt_eq hp] at h
  cases hlookup : (s.cache m).lookup b.world.disk v with
  | error e' => exact absurd hlookup (hm.lookup v e')
  | ok found =>
    cases found with
    | some a => simp [hlookup] at h
    | none =>
      simp only [hlookup] at h
      refine uncorrupted_of_rebuild hs tidy hp hd (fun hflag => ?_) h
      obtain rfl := home hflag
      exact hm.source

/-! ## Operations -/

theorem uncorrupted_of_build (hs : s.Clear) (tidy : tc.Tidy C)
    (readable : ∀ {m u d}, s.On d → I m u d → Readable s m d) (h : Holds s I b)
    (hb : build tc b = .error e b') : ¬e.Corrupted := by
  obtain ⟨m, hp, hm⟩ := h.state
  by_cases hstage : b.program.stage = .unbuilt
  · rw [build_of_unbuilt tc hstage] at hb
    rcases EStateM.of_bind_error hb with hensure | ⟨a, b₁, _, hb⟩
    · exact uncorrupted_of_ensureBuilt hs tidy hp h.on (readable h.on hm)
        (fun _ => h.home hstage) hensure
    · cases hb
  · rw [build_of_built tc hstage] at hb
    cases hb

theorem uncorrupted_of_measure (hs : s.Clear) (tidy : tc.Tidy C)
    (readable : ∀ {m u d}, s.On d → I m u d → Readable s m d) (h : Holds s I b)
    (hm : measure tc b = .error e b') : ¬e.Corrupted := by
  rcases of_measure_error hm with hb | ⟨b₁, _, hrun⟩
  · exact uncorrupted_of_build hs tidy readable h hb
  · exact (fails_runMeasurement tc _ _ _ _ _ hrun).uncorrupted

theorem uncorrupted_of_reset (hs : s.Clear) (tidy : tc.Tidy C)
    (readable : ∀ {m u d}, s.On d → I m u d → Readable s m d)
    (home : ∀ {m u d}, I m u d → I m .base d) (h : Holds s I b)
    (hr : reset tc b = .error e b') : ¬e.Corrupted := by
  have hrestarted : Holds s I (restarted b) := h.restarted home
  exact uncorrupted_of_measure hs tidy readable hrestarted (of_reset_error hr)

theorem uncorrupted_of_advance (hs : s.Clear) (tidy : tc.Tidy C)
    (readable : ∀ {m u d}, s.On d → I m u d → Readable s m d) {action : ActionId} {flag : String}
    {before : Float} (h : Holds s I b) (ha : advance tc action flag before b = .error e b') :
    ¬e.Corrupted := by
  obtain ⟨m, hp, hm⟩ := h.state
  rcases of_advance_error ha with ⟨_, _, rfl, _⟩ | ⟨v, _, hensure | ⟨a, b₁, _, hrest⟩⟩
  · exact nofun
  · exact uncorrupted_of_ensureBuilt hs tidy hp h.on (readable h.on hm) (by simp) hensure
  · rcases hrest with hrun | ⟨_, _, _, _, rfl⟩
    · exact (fails_runMeasurement tc _ _ _ _ _ hrun).uncorrupted
    · exact nofun

/-- The cost that a step starts from is measured with success before the step's variant is looked
up, so what lasts through success decides what the step can report. -/
theorem uncorrupted_of_step (hs : s.Clear) (tidy : tc.Tidy C) (hI : Settling C s I)
    (readable : ∀ {m u d}, s.On d → I m u d → Readable s m d) {catalog : Catalog}
    {action : ActionId} (h : Holds s I b) (hstep : step tc catalog action b = .error e b') :
    ¬e.Corrupted := by
  cases hd : catalog.describe action with
  | error fault =>
    rw [step_of_unknown tc hd] at hstep
    cases hstep
    exact nofun
  | ok flag =>
    rw [step_of_known tc hd] at hstep
    rcases EStateM.of_bind_error hstep with hc | ⟨cost, b₁, hc, ha⟩
    · exact uncorrupted_of_measure hs tidy readable h (of_standingCost_error hc).2
    · exact uncorrupted_of_advance hs tidy readable (holds_standingCost hs tidy hI h hc) ha

end PassTuner.Program
