import PassTuner.Program.Measure
import PassTuner.Proofs.Program.Work

/-!
# What building and profiling do to a program

Building a variant and profiling it count what they did and enter the variant into the cache;
nothing else of the program is touched by any of their pieces. A relation that allows just that
holds between the programs before and after, however the work ends.
-/

namespace PassTuner.Program

variable {σ : Type} {R : Program → Program → Prop}

/-- A relation that holds whatever is counted and recorded. -/
structure Tolerant (R : Program → Program → Prop) : Prop where
  refl : ∀ p, R p p
  trans : ∀ p q r, R p q → R q r → R p r
  count : ∀ p stats, R p { p with stats := stats }
  record : ∀ p d v, R p { p with cache := (p.cache.record d v).2.1 }

namespace Tolerant

theorem along_count (hR : Tolerant R) (f : ProgramStats → ProgramStats) :
    (Work.count f : Work σ Unit).Along R := Work.along_modifyProgram fun p => hR.count p _

theorem along_recordVariant (hR : Tolerant R) (v : Variant) :
    (recordVariant v : Work σ Unit).Along R := by
  intro b
  have hrecord := hR.record b.program b.world.disk v
  rcases h : b.program.cache.record b.world.disk v with ⟨result, cache, disk⟩
  rw [h] at hrecord
  cases result <;> simpa only [Work.after, recordVariant, h] using hrecord

theorem along_demand (hR : Tolerant R) (t : Tool σ ToolOutput)
    (refusal : ToolOutput → EnvironmentError) : (Work.demand t refusal).Along R :=
  Work.along_demand hR.refl hR.trans t refusal

theorem along_transformInto (hR : Tolerant R) (tc : Toolchain σ) (v : Variant) (flag : String) :
    (transformInto tc v flag).Along R := by
  refine (Work.along_program hR.refl).bind hR.trans fun p => ?_
  refine (hR.along_count _).bind hR.trans fun _ => ?_
  exact hR.along_demand _ _

theorem along_assemble (hR : Tolerant R) (tc : Toolchain σ) (v : Variant) (object : String) :
    (assemble tc v object).Along R := by
  refine (Work.along_program hR.refl).bind hR.trans fun p => ?_
  refine (hR.along_count _).bind hR.trans fun _ => ?_
  refine (hR.along_demand _ _).bind hR.trans fun _ => ?_
  refine (hR.along_demand _ _).bind hR.trans fun _ => ?_
  exact hR.along_recordVariant v

theorem along_withScratch (hR : Tolerant R) {α : Type} {work : String → Work σ α}
    (h : ∀ path, (work path).Along R) : (withScratch work).Along R := by
  refine (Work.along_program hR.refl).bind hR.trans fun p => ?_
  refine (Work.along_disk hR.refl).bind hR.trans fun d => ?_
  dsimp only
  split
  · exact Work.along_throw hR.refl _
  · refine (Work.along_modifyDisk hR.refl _).bind hR.trans fun _ => ?_
    exact (h _).cleaning _

theorem along_rebuild (hR : Tolerant R) (tc : Toolchain σ) (v : Variant) (flag : Option String) :
    (rebuild tc v flag).Along R := by
  refine (Work.along_program hR.refl).bind hR.trans fun p => ?_
  have rest : (do
      withScratch fun scratch => assemble tc v (Path.join scratch s!"{p.name}.o")
      pure (p.cache.artifacts v) : Work σ Artifacts).Along R :=
    (hR.along_withScratch fun _ => hR.along_assemble tc v _).bind hR.trans
      fun _ => Work.along_pure hR.refl _
  cases flag with
  | some flag => exact (hR.along_transformInto tc v flag).bind hR.trans fun _ => rest
  | none =>
    refine (Work.along_disk hR.refl).bind hR.trans fun d => ?_
    dsimp only
    split
    · exact (Work.along_throw hR.refl _).bind hR.trans fun _ => rest
    · exact rest

theorem along_ensureBuilt (hR : Tolerant R) (tc : Toolchain σ) (v : Variant)
    (flag : Option String) : (ensureBuilt tc v flag).Along R := by
  refine (Work.along_program hR.refl).bind hR.trans fun p => ?_
  refine (Work.along_disk hR.refl).bind hR.trans fun d => ?_
  refine (Work.along_ofExcept hR.refl _).bind hR.trans fun found => ?_
  cases found with
  | some a => exact (hR.along_count _).bind hR.trans fun _ => Work.along_pure hR.refl a
  | none => exact hR.along_rebuild tc v flag

theorem along_settle (hR : Tolerant R) (tc : Toolchain σ) (v : Variant) (executable : String)
    (patience retries : Nat) : (settle tc v executable patience retries).Along R := by
  induction patience generalizing retries with
  | zero => exact (Work.along_program hR.refl).bind hR.trans fun _ =>
      Work.along_throw hR.refl _
  | succ patience ih =>
    refine (Work.along_ofTool hR.refl _).bind hR.trans fun output => ?_
    split
    · exact (Work.along_sleep hR.refl _).bind hR.trans fun _ => ih (retries + 1)
    · exact Work.along_pure hR.refl _

theorem along_runMeasurement (hR : Tolerant R) (tc : Toolchain σ) (v : Variant)
    (executable : String) : (runMeasurement tc v executable).Along R := by
  refine (hR.along_settle tc v executable _ _).bind hR.trans fun settled => ?_
  refine (Work.along_now hR.refl).bind hR.trans fun takenAt => ?_
  refine (hR.along_count _).bind hR.trans fun _ => ?_
  split
  · exact Work.along_pure hR.refl _
  · exact (Work.along_program hR.refl).bind hR.trans fun _ => Work.along_throw hR.refl _

end Tolerant

/-- Programs that differ in their caches and counts at most. -/
def Alike (p q : Program) : Prop := q = { p with cache := q.cache, stats := q.stats }

theorem Alike.refl (p : Program) : Alike p p := rfl

theorem Alike.trans (p q r : Program) (hpq : Alike p q) (hqr : Alike q r) : Alike p r := by
  unfold Alike at *
  rw [hqr, hpq]

theorem Alike.lineage {p q : Program} (h : Alike p q) : q.lineage = p.lineage := by rw [h]

theorem Alike.current {p q : Program} (h : Alike p q) : q.current = p.current := by rw [h]

theorem Alike.base {p q : Program} (h : Alike p q) : q.base = p.base := by rw [h]

theorem Alike.stage {p q : Program} (h : Alike p q) : q.stage = p.stage := by rw [h]

theorem tolerant_alike : Tolerant Alike where
  refl := Alike.refl
  trans := Alike.trans
  count _ _ := rfl
  record _ _ _ := rfl

theorem alike_ensureBuilt (tc : Toolchain σ) (v : Variant) (flag : Option String) :
    (ensureBuilt tc v flag).Along Alike := tolerant_alike.along_ensureBuilt tc v flag

theorem alike_runMeasurement (tc : Toolchain σ) (v : Variant) (executable : String) :
    (runMeasurement tc v executable).Along Alike :=
  tolerant_alike.along_runMeasurement tc v executable

end PassTuner.Program
