import PassTuner.Proofs.Program.Lifecycle

/-!
# How operations on a program fail

Most of what can go wrong with a program is about its files and its tools. An action is at fault
only when it has no flag or no code, which is found out before anything is built: an action of the
catalog never is.
-/

namespace PassTuner

namespace EnvironmentError

/-- The error is about files or tools, and not about an action. -/
def Material (e : EnvironmentError) : Prop := ∀ fault, e ≠ .variant fault

/-- The error says that a file of a cache is not what it should be. -/
def Corrupted (e : EnvironmentError) : Prop := ∃ path fault, e = .cacheCorrupted path fault

/-- The error is neither about an action nor about what is in a cache. -/
structure Incidental (e : EnvironmentError) : Prop where
  material : e.Material
  uncorrupted : ¬e.Corrupted

end EnvironmentError

namespace Work

variable {σ α β : Type} {P : EnvironmentError → Prop}

/-- Work all of whose errors are of one kind. -/
def Fails (P : EnvironmentError → Prop) (work : Work σ α) : Prop :=
  ∀ b e b', work b = .error e b' → P e

theorem Fails.bind {work : Work σ α} {next : α → Work σ β} (first : Fails P work)
    (second : ∀ a, Fails P (next a)) : Fails P (work >>= next) := by
  intro b e b' h
  rcases EStateM.of_bind_error h with hw | ⟨a, b₁, _, hn⟩
  · exact first _ _ _ hw
  · exact second a _ _ _ hn

theorem Fails.mono {Q : EnvironmentError → Prop} {work : Work σ α} (h : Fails P work)
    (hPQ : ∀ e, P e → Q e) : Fails Q work := fun b e b' he => hPQ e (h b e b' he)

theorem fails_pure (a : α) : Fails P (pure a : Work σ α) := fun _ _ _ h => by cases h

theorem fails_throw {e : EnvironmentError} (he : P e) : Fails P (throw e : Work σ α) :=
  fun _ _ _ h => by cases h; exact he

theorem fails_program : Fails P (program : Work σ Program) := fun _ _ _ h => by cases h

theorem fails_disk : Fails P (disk : Work σ Disk) := fun _ _ _ h => by cases h

theorem fails_now : Fails P (now : Work σ Nat) := fun _ _ _ h => by cases h

theorem fails_sleep (n : Nat) : Fails P (sleep n : Work σ Unit) := fun _ _ _ h => by cases h

theorem fails_modifyDisk (f : Disk → Disk) : Fails P (modifyDisk f : Work σ Unit) :=
  fun _ _ _ h => by cases h

theorem fails_modifyProgram (f : Program → Program) : Fails P (modifyProgram f : Work σ Unit) :=
  fun _ _ _ h => by cases h

theorem fails_ofExcept {x : Except EnvironmentError α} (h : ∀ e, x = .error e → P e) :
    Fails P (ofExcept x : Work σ α) := by
  cases x with
  | ok a => exact fails_pure a
  | error e => exact fails_throw (h e rfl)

theorem fails_ofTool (ht : ∀ e, P (.tool e)) (t : Tool σ α) : Fails P (ofTool t) := by
  intro b e b' h
  unfold ofTool at h
  split at h
  · cases h
  · cases h
    exact ht _

theorem fails_demand (ht : ∀ e, P (.tool e)) (t : Tool σ ToolOutput)
    {refusal : ToolOutput → EnvironmentError} (hr : ∀ output, P (refusal output)) :
    Fails P (demand t refusal) := by
  refine (fails_ofTool ht t).bind fun output => ?_
  split
  · exact fails_throw (hr output)
  · exact fails_pure _

theorem Fails.cleaning {work : Work σ α} (h : Fails P work) (f : Disk → Disk) :
    Fails P (cleaning f work) := by
  intro b e b' hw
  unfold Work.cleaning at hw
  cases hwork : work b with
  | ok a b₁ => simp [hwork] at hw
  | error e₁ b₁ =>
    simp only [hwork] at hw
    cases hw
    exact h _ _ _ hwork

end Work

namespace Program

open EnvironmentError Work

variable {σ α : Type}

theorem material_of_lookup {c : Cache} {d : Disk} {v : Variant} {e : EnvironmentError}
    (h : c.lookup d v = .error e) : e.Material := by
  have corrupted {path digest : String} {e : EnvironmentError}
      (h : Cache.verify d path digest = .error e) : e.Material := by
    unfold Cache.verify at h
    split at h
    · cases h
    · cases h
      exact nofun
    · split at h
      · cases h
      · cases h
        exact nofun
  unfold Cache.lookup at h
  split at h
  · cases h
  · dsimp only at h
    split at h
    · rename_i hverify
      cases h
      exact corrupted hverify
    · cases h
    · split at h
      · rename_i hverify
        cases h
        exact corrupted hverify
      · cases h
      · cases h

theorem material_of_record {c : Cache} {d : Disk} {v : Variant} {e : EnvironmentError}
    (h : (c.record d v).1 = .error e) : e.Material := by
  unfold Cache.record at h
  cases henter : c.enter d v with
  | error e' =>
    simp only [henter] at h
    cases h
    unfold Cache.enter at henter
    dsimp only at henter
    split at henter
    · cases henter
      exact nofun
    · split at henter
      · cases henter
        exact nofun
      · cases henter
  | ok c' =>
    cases hsave : c'.save d with
    | error e' =>
      simp only [henter, hsave] at h
      cases h
      unfold Cache.save at hsave
      dsimp only at hsave
      split at hsave
      · cases hsave
      · cases hsave
        exact nofun
    | ok d' => simp only [henter, hsave] at h; cases h

theorem fails_recordVariant (v : Variant) :
    Fails Material (recordVariant v : Work σ Unit) := by
  intro b e b' h
  have hrecord (e : EnvironmentError) : (b.program.cache.record b.world.disk v).1 = .error e →
      e.Material := material_of_record
  unfold recordVariant at h
  rcases hr : b.program.cache.record b.world.disk v with ⟨result, cache, disk⟩
  rw [hr] at hrecord
  cases result with
  | ok _ => simp [hr] at h
  | error e' =>
    simp only [hr] at h
    cases h
    exact hrecord _ rfl

theorem fails_transformInto (tc : Toolchain σ) (v : Variant) (flag : String) :
    Fails Incidental (transformInto tc v flag) :=
  fails_program.bind fun _ => (fails_modifyProgram _).bind fun _ =>
    fails_demand (fun _ => ⟨nofun, nofun⟩) _ fun _ => ⟨nofun, nofun⟩

theorem fails_assemble (tc : Toolchain σ) (v : Variant) (object : String) :
    Fails Material (assemble tc v object) := by
  refine fails_program.bind fun p => (fails_modifyProgram _).bind fun _ => ?_
  refine (fails_demand (fun _ => nofun) _ fun _ => nofun).bind fun _ => ?_
  exact (fails_demand (fun _ => nofun) _ fun _ => nofun).bind fun _ => fails_recordVariant v

theorem fails_withScratch {work : String → Work σ α} (h : ∀ path, Fails Material (work path)) :
    Fails Material (withScratch work) := by
  refine fails_program.bind fun p => fails_disk.bind fun d => ?_
  dsimp only
  split
  · exact fails_throw nofun
  · exact (fails_modifyDisk _).bind fun _ => (h _).cleaning _

theorem fails_rebuild (tc : Toolchain σ) (v : Variant) (flag : Option String) :
    Fails Material (rebuild tc v flag) := by
  refine fails_program.bind fun p => ?_
  have rest : Fails Material (do
      withScratch fun scratch => assemble tc v (Path.join scratch s!"{p.name}.o")
      pure (p.cache.artifacts v) : Work σ Artifacts) :=
    (fails_withScratch fun _ => fails_assemble tc v _).bind fun _ => fails_pure _
  cases flag with
  | some flag =>
    exact ((fails_transformInto tc v flag).mono fun _ => Incidental.material).bind fun _ => rest
  | none =>
    refine fails_disk.bind fun d => ?_
    dsimp only
    split
    · exact (fails_throw nofun).bind fun _ => rest
    · exact rest

theorem fails_ensureBuilt (tc : Toolchain σ) (v : Variant) (flag : Option String) :
    Fails Material (ensureBuilt tc v flag) := by
  refine fails_program.bind fun p => fails_disk.bind fun d => ?_
  refine (fails_ofExcept fun e => material_of_lookup).bind fun found => ?_
  cases found with
  | some a => exact (fails_modifyProgram _).bind fun _ => fails_pure a
  | none => exact fails_rebuild tc v flag

theorem fails_settle (tc : Toolchain σ) (v : Variant) (executable : String)
    (patience retries : Nat) : Fails Incidental (settle tc v executable patience retries) := by
  induction patience generalizing retries with
  | zero => exact fails_program.bind fun _ => fails_throw ⟨nofun, nofun⟩
  | succ patience ih =>
    refine (fails_ofTool (fun _ => ⟨nofun, nofun⟩) _).bind fun output => ?_
    split
    · exact (fails_sleep _).bind fun _ => ih (retries + 1)
    · exact fails_pure _

theorem fails_runMeasurement (tc : Toolchain σ) (v : Variant) (executable : String) :
    Fails Incidental (runMeasurement tc v executable) := by
  refine (fails_settle tc v executable _ _).bind fun settled => fails_now.bind fun takenAt => ?_
  refine (fails_modifyProgram _).bind fun _ => ?_
  split
  · exact fails_pure _
  · exact fails_program.bind fun _ => fails_throw ⟨nofun, nofun⟩

theorem fails_build (tc : Toolchain σ) : Fails Material (build tc) := by
  refine fails_program.bind fun p => ?_
  split
  · exact (fails_ensureBuilt tc _ _).bind fun _ => fails_modifyProgram _
  · exact fails_pure _

theorem fails_measure (tc : Toolchain σ) : Fails Material (measure tc) := by
  rw [measure_eq]
  refine (fails_build tc).bind fun _ => fails_program.bind fun p => ?_
  exact ((fails_runMeasurement tc _ _).mono fun _ => Incidental.material).bind fun m =>
    (fails_modifyProgram _).bind fun _ => fails_pure m

theorem fails_reset (tc : Toolchain σ) : Fails Material (reset tc) := by
  intro b e b' h
  cases hf : baseIsFresh b.program b.world.clock with
  | true => rw [reset_of_fresh tc hf] at h; cases h
  | false =>
    rw [reset_of_stale tc hf] at h
    exact (fails_measure tc).bind (fun _ => fails_pure _) _ _ _ h

/-- A step with an action of the catalog has nothing to say against the action. -/
theorem fails_step (tc : Toolchain σ) {catalog : Catalog} {action : ActionId}
    (h : action.toNat < catalog.size) : Fails Material (step tc catalog action) := by
  obtain ⟨flag, hflag⟩ : ∃ flag, catalog.describe action = .ok flag := by
    unfold Catalog.describe
    rw [List.getElem?_eq_getElem h]
    exact ⟨_, rfl⟩
  rw [step_of_known tc hflag]
  intro b e b' hs
  rcases EStateM.of_bind_error hs with hs | ⟨cost, b₁, _, ha⟩
  · exact fails_measure tc _ _ _ (of_standingCost_error hs).2
  rcases of_advance_error ha with
    ⟨fault, hv, _, _⟩ | ⟨v, _, ha | ⟨a, b₂, _, hm | ⟨_, _, _, _, rfl⟩⟩⟩
  · unfold Variant.extend? at hv
    rw [dif_pos (Nat.lt_of_lt_of_le h catalog.encodable)] at hv
    cases hv
  · exact fails_ensureBuilt tc _ _ _ _ _ ha
  · exact (fails_runMeasurement tc _ _ _ _ _ hm).material
  · exact nofun

end Program

end PassTuner
