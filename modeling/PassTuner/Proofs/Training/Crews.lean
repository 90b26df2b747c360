import PassTuner.Proofs.Training.Keeping

/-!
# What rollouts and crews leave behind

A rollout puts its program back, takes selections off the schedule and draws random numbers; nothing
else happens to the trainer. So an evaluation, which restores the schedule, leaves all that is
learned. The jobs of a round are for a crew, which is known by what it leaves: schedule and buffer
after selections and pushes in some order. Doing the jobs one after another is such a crew, and so
are workers that take turns in any order.
-/

namespace PassTuner

variable {σ Q α β : Type}

/-! ## Schedules -/

namespace Exploration

@[simp] theorem floor_decayOnce (e : Exploration) : e.decayOnce.floor = e.floor := by
  unfold decayOnce
  split <;> rfl

@[simp] theorem decay_decayOnce (e : Exploration) : e.decayOnce.decay = e.decay := by
  unfold decayOnce
  split <;> rfl

theorem floor_iterate (n : Nat) (e : Exploration) : (decayOnce^[n] e).floor = e.floor := by
  induction n with
  | zero => rfl
  | succ n ih => rw [Function.iterate_succ_apply', floor_decayOnce, ih]

theorem decay_iterate (n : Nat) (e : Exploration) : (decayOnce^[n] e).decay = e.decay := by
  induction n with
  | zero => rfl
  | succ n ih => rw [Function.iterate_succ_apply', decay_decayOnce, ih]

end Exploration

namespace Trainer

variable [Approximator Q] {settings : TrainingSettings} {catalog : Catalog}
  {programs holdout : List Program} {q : Q} {t : Trainer Q}

theorem eq_of_ofParts {rng : Rng} (h : ofParts settings catalog programs holdout q rng = .ok t) :
    t = { settings, catalog, programs, holdout, rng
          online := Approximator.setTraining true q
          target := Approximator.setTraining true q
          schedule := ⟨settings.epsilon, settings.epsilonFloor, settings.epsilonDecay⟩
          buffer := .new settings.bufferCapacity settings.sampling } := by
  simp only [ofParts, bind, Except.bind, pure, Except.pure, throw, throwThe,
    MonadExceptOf.throw] at h
  split at h
  · cases h
  split at h
  · cases h
  split at h
  · cases h
  split at h
  · cases h
  exact (Except.ok.inj h).symm

/-- All of a trainer that was set up but its split and its random numbers. -/
theorem Built.eq (h : Built settings catalog programs q t) : t =
    { settings, catalog, programs := t.programs, holdout := t.holdout, rng := t.rng
      online := Approximator.setTraining true q
      target := Approximator.setTraining true q
      schedule := ⟨settings.epsilon, settings.epsilonFloor, settings.epsilonDecay⟩
      buffer := .new settings.bufferCapacity settings.sampling } := by
  cases h with
  | split _ h =>
    obtain ⟨⟨⟩, _, h⟩ := Except.of_bind_ok h
    rw [eq_of_ofParts h]
  | random h =>
    obtain ⟨⟨⟩, _, h⟩ := Except.of_bind_ok h
    dsimp only at h
    split at h
    · rw [eq_of_ofParts h]
    · cases h

end Trainer

namespace Walk

variable [Approximator Q]

/-- A rollout takes selections off the schedule, and nothing else happens to it. -/
theorem schedule_outcome (plan : Plan σ Q) (x : Phase × Trail σ) :
    ∃ n, (outcome plan x).2.explorer.schedule =
      Exploration.decayOnce^[n] x.2.explorer.schedule := by
  -- the end is nearer after each turn
  induction hn : x.1.left plan.maxSteps using Nat.strongRecOn generalizing x with
  | ind n ih =>
    cases hr : x.1.result? with
    | some result => exact ⟨0, by rw [outcome_of_gone (by simp [hr])]; rfl⟩
    | none =>
      obtain ⟨k, hk⟩ := ih _ (hn ▸ left_turn hr) (turn plan x) rfl
      rw [outcome_turn] at hk
      rcases schedule_turn plan hr with ⟨_, hs⟩ | ⟨_, hs⟩
      · exact ⟨k + 1, by rw [hk, hs, Function.iterate_succ_apply]⟩
      · exact ⟨k, by rw [hk, hs]⟩

/-- The same of a rollout from its start to its end. -/
theorem schedule_rollout (plan : Plan σ Q) (t : Trail σ) : ∃ n,
    (gone (rollout plan.tools plan.catalog plan.online plan.maxSteps t)).2.explorer.schedule =
      Exploration.decayOnce^[n] t.explorer.schedule := by
  rw [← outcome_arriving]
  exact schedule_outcome plan _

end Walk

namespace Training

/-! ## Rollouts -/

/-- What rollouts may do to a trainer: its programs of one role are put back, its schedule takes
selections, and its random numbers are drawn. -/
structure Rolled (role : Role) (t t' : Trainer Q) : Prop where
  length : (programsOf t' role).length = (programsOf t role).length
  spared : ∀ other, other ≠ role → programsOf t' other = programsOf t other
  selections : ∃ n, t'.schedule = Exploration.decayOnce^[n] t.schedule
  others : t' = { t with
    programs := t'.programs, holdout := t'.holdout, schedule := t'.schedule, rng := t'.rng }

/-- Work does to a trainer what rollouts may do, however it ends. -/
def Rolls (role : Role) (x : Training σ Q α) : Prop :=
  ∀ l, Rolled role l.trainer (after x l).trainer

section Rolled

variable {role : Role} {t t₁ t₂ : Trainer Q} {x : Training σ Q α} {l l' : Lab σ Q}

theorem Rolled.refl (t : Trainer Q) : Rolled role t t := ⟨rfl, fun _ _ => rfl, ⟨0, rfl⟩, rfl⟩

theorem Rolled.trans (first : Rolled role t t₁) (second : Rolled role t₁ t₂) :
    Rolled role t t₂ := by
  obtain ⟨n, hn⟩ := first.selections
  obtain ⟨m, hm⟩ := second.selections
  refine ⟨second.length.trans first.length, fun other h => ?_, ⟨m + n, ?_⟩, ?_⟩
  · exact (second.spared other h).trans (first.spared other h)
  · rw [hm, hn, Function.iterate_add_apply]
  · rw [second.others, first.others]

theorem Rolled.floor (h : Rolled role t t₁) : t₁.schedule.floor = t.schedule.floor := by
  obtain ⟨n, hn⟩ := h.selections
  rw [hn, Exploration.floor_iterate]

theorem Rolled.decay (h : Rolled role t t₁) : t₁.schedule.decay = t.schedule.decay := by
  obtain ⟨n, hn⟩ := h.selections
  rw [hn, Exploration.decay_iterate]

theorem Rolled.setProgram (t : Trainer Q) (role : Role) (i : Nat) (p : Program) {n : Nat}
    {e : Exploration} (h : e = Exploration.decayOnce^[n] t.schedule) :
    Rolled role t { setProgram t role i p with schedule := e } := by
  refine ⟨?_, fun other hother => ?_, ⟨n, h⟩, ?_⟩
  · cases role <;> exact List.length_set
  · cases role <;> cases other <;> first | rfl | exact absurd rfl hother
  · cases role <;> rfl

theorem Rolls.of_ok (h : Rolls role x) {a : α} (hx : x l = .ok a l') :
    Rolled role l.trainer l'.trainer := by
  have := h l
  rwa [after_of_ok hx] at this

theorem Rolls.of_error (h : Rolls role x) {e : TrainingError} (hx : x l = .error e l') :
    Rolled role l.trainer l'.trainer := by
  have := h l
  rwa [after_of_error hx] at this

theorem rolls_pure (a : α) : Rolls role (pure a : Training σ Q α) := fun l => .refl l.trainer

theorem rolls_throw (e : TrainingError) : Rolls role (throw e : Training σ Q α) :=
  fun l => .refl l.trainer

theorem rolls_trainer : Rolls role (trainer : Training σ Q (Trainer Q)) := fun l => .refl l.trainer

theorem Rolls.bind {f : α → Training σ Q β} (first : Rolls role x)
    (second : ∀ a, Rolls role (f a)) :
    Rolls role (x >>= f) := by
  intro l
  cases hx : x l with
  | error e l₁ =>
    rw [after_bind_of_error hx]
    exact first.of_error hx
  | ok a l₁ =>
    rw [after_bind_of_ok hx]
    exact (first.of_ok hx).trans (second a l₁)

variable [Approximator Q]

theorem rolls_rollout (tc : Toolchain σ) (role : Role) (i : Nat) (rng : Rng) :
    Rolls role (rollout tc role i rng : Training σ Q (Except TrainingError Rollout × Rng)) := by
  intro l
  unfold after
  cases hp : (programsOf l.trainer role)[i]? with
  | none =>
    simp only [rollout, hp]
    exact .refl _
  | some p =>
    obtain ⟨n, hn⟩ := Walk.schedule_rollout (planOf tc l.trainer)
      ⟨⟨l.world, p⟩, l.trainer.schedule, rng⟩
    simp only [planOf] at hn
    simp only [rollout, hp]
    cases hr : Walk.rollout tc l.trainer.catalog l.trainer.online l.trainer.settings.maxSteps
        ⟨⟨l.world, p⟩, ⟨l.trainer.schedule, rng⟩⟩ with
    | ok r trail => exact .setProgram _ _ _ _ (by rw [hr] at hn; exact hn)
    | error e trail => exact .setProgram _ _ _ _ (by rw [hr] at hn; exact hn)

theorem rolls_rolloutNext (tc : Toolchain σ) (role : Role) (i : Nat) :
    Rolls role (rolloutNext tc role i : Training σ Q Rollout) := by
  unfold rolloutNext
  refine rolls_trainer.bind fun t => (rolls_rollout tc role i t.rng).bind fun rolled =>
    Rolls.bind (fun l => ?_) fun _ => ?_
  · refine ⟨?_, fun other _ => ?_, ⟨0, rfl⟩, rfl⟩
    · cases role <;> rfl
    · cases other <;> rfl
  · cases rolled.1 with
    | ok r => exact rolls_pure r
    | error e => exact rolls_throw e

theorem rolls_evaluateFrom (tc : Toolchain σ) (n i : Nat) :
    Rolls .heldOut (evaluateFrom tc n i : Training σ Q (List ProgramResult)) := by
  induction n generalizing i with
  | zero => exact rolls_pure _
  | succ n ih =>
    unfold evaluateFrom
    refine rolls_trainer.bind fun t => ?_
    cases t.holdout[i]? with
    | none => exact rolls_pure _
    | some p =>
      refine (rolls_rolloutNext tc .heldOut i).bind fun r => rolls_trainer.bind fun t => ?_
      cases resultOf t.catalog p p.baseCost? r with
      | error e => exact rolls_throw e
      | ok result => exact (ih (i + 1)).bind fun _ => rolls_pure _

theorem rolls_evaluateHoldout (tc : Toolchain σ) :
    Rolls .heldOut (evaluateHoldout tc : Training σ Q Evaluation) :=
  rolls_trainer.bind fun _ => (rolls_evaluateFrom tc _ _).bind fun _ => rolls_pure _

end Rolled

/-- However an evaluation ends, it leaves the trainer as it was but for the programs held out, for
the random numbers, and for the online approximator, whose mode was switched off and on again. -/
theorem after_evaluate [Approximator Q] (tc : Toolchain σ) (l : Lab σ Q) : ∃ holdout rng,
    holdout.length = l.trainer.holdout.length ∧ (after (evaluate tc) l).trainer =
      { l.trainer with
        holdout, rng
        online := Approximator.setTraining (Approximator.isTraining l.trainer.online)
          (Approximator.setTraining false l.trainer.online) } := by
  have hback : (after (evaluate tc) l).trainer = restored l.trainer
      (after (evaluateHoldout tc) { l with trainer := greedily l.trainer }).trainer := by
    unfold after evaluate
    cases evaluateHoldout tc { l with trainer := greedily l.trainer } <;> rfl
  have h := rolls_evaluateHoldout tc { l with trainer := greedily l.trainer }
  rw [hback]
  generalize (after (evaluateHoldout tc) { l with trainer := greedily l.trainer }).trainer = t at h
  have hprograms : t.programs = l.trainer.programs := h.spared .trained nofun
  have hschedule : { t.schedule with epsilon := l.trainer.schedule.epsilon } = l.trainer.schedule :=
    congrArg₂ (Exploration.mk l.trainer.schedule.epsilon) h.floor h.decay
  refine ⟨t.holdout, t.rng, h.length, ?_⟩
  rw [restored, hschedule, h.others, hprograms]
  rfl

/-! ## Crews -/

/-- A way to do the jobs of a round. -/
abbrev Crew (σ Q : Type) := List (Nat × UInt64) → Training σ Q (List (Except TrainingError Unit))

/-- What the jobs of a round may do to a trainer: programs are put back, and what is shared takes
selections and pushes one after another. -/
structure Mustered (t t' : Trainer Q) : Prop where
  shared : ∃ log : List Event,
    t'.schedule = Exploration.decayOnce^[log.countP Event.isSelection] t.schedule ∧
      t'.buffer = log.foldl Event.apply t.buffer
  length : t'.programs.length = t.programs.length
  others : t' = { t with programs := t'.programs, schedule := t'.schedule, buffer := t'.buffer }

/-- The crew answers for each job, and leaves what jobs may leave. -/
def Orderly (crew : Crew σ Q) : Prop :=
  ∀ jobs l, (jobs.map (·.1)).Nodup → (∀ job ∈ jobs, job.1 < l.trainer.programs.length) →
    ∃ results l', crew jobs l = .ok results l' ∧ results.length = jobs.length ∧
      Mustered l.trainer l'.trainer

theorem of_ofTrainer_ok {f : Trainer Q → Except TrainingError (α × Trainer Q)} {a : α}
    {l l' : Lab σ Q} (h : ofTrainer f l = .ok a l') :
    f l.trainer = .ok (a, l'.trainer) ∧ l' = { l with trainer := l'.trainer } := by
  unfold ofTrainer at h
  split at h
  · rename_i hmade
    cases h
    exact ⟨hmade, rfl⟩
  · cases h

theorem of_ofTrainer_error
    {f : Trainer Q → Except TrainingError (α × Trainer Q)} {e : TrainingError}
    {l l' : Lab σ Q} (h : ofTrainer f l = .error e l') : f l.trainer = .error e ∧ l' = l := by
  unfold ofTrainer at h
  split at h
  · cases h
  · rename_i hmade
    cases h
    exact ⟨hmade, rfl⟩

/-- The jobs that a trainer picks are on as many distinct programs as there are to be workers. -/
theorem jobs_of_pickSome {l l' : Lab σ Q} {workers : Nat} {jobs : List (Nat × UInt64)}
    (h : ofTrainer (Trainer.pickSome workers) l = .ok jobs l') :
    jobs.length = workers ∧ (jobs.map (·.1)).Nodup ∧
      (∀ job ∈ jobs, job.1 < l'.trainer.programs.length) ∧
        ∃ rng, l'.trainer = { l.trainer with rng } := by
  obtain ⟨hpick, _⟩ := of_ofTrainer_ok h
  have enough : workers ≤ l.trainer.programs.length := by
    by_contra hmany
    rw [Trainer.pickSome, dif_neg hmany] at hpick
    cases hpick
  obtain ⟨jobs', rng, hpick', hchosen⟩ := pickSome_spec l.trainer enough
  rw [hpick'] at hpick
  obtain ⟨rfl, htrainer⟩ := Prod.mk.inj (Except.ok.inj hpick)
  refine ⟨by rw [← hchosen.size, List.length_map], hchosen.nodup, fun job hjob => ?_, rng,
    htrainer.symm⟩
  rw [← htrainer]
  exact hchosen.below _ (List.mem_map_of_mem hjob)

/-- An orderly crew does what it should with the jobs that a trainer picks. -/
theorem Orderly.of_pickSome {l l' : Lab σ Q} {crew : Crew σ Q} (hc : Orderly crew) {workers : Nat}
    {jobs : List (Nat × UInt64)} (h : ofTrainer (Trainer.pickSome workers) l = .ok jobs l') :
    jobs.length = workers ∧ (∃ rng, l'.trainer = { l.trainer with rng }) ∧
      ∃ results l₁, crew jobs l' = .ok results l₁ ∧ results.length = workers ∧
        Mustered l'.trainer l₁.trainer := by
  obtain ⟨hlength, distinct, inside, hrng⟩ := jobs_of_pickSome h
  obtain ⟨results, l₁, hcrew, hanswers, hmustered⟩ := hc jobs l' distinct inside
  exact ⟨hlength, hrng, results, l₁, hcrew, hanswers.trans hlength, hmustered⟩

section Mustered

variable {t t₁ t₂ : Trainer Q}

theorem Mustered.refl (t : Trainer Q) : Mustered t t := ⟨⟨[], rfl, rfl⟩, rfl, rfl⟩

theorem Mustered.trans (first : Mustered t t₁) (second : Mustered t₁ t₂) : Mustered t t₂ := by
  obtain ⟨log, hschedule, hbuffer⟩ := first.shared
  obtain ⟨log', hschedule', hbuffer'⟩ := second.shared
  refine ⟨⟨log ++ log', ?_, ?_⟩, second.length.trans first.length, ?_⟩
  · rw [hschedule', hschedule, List.countP_append, Nat.add_comm, Function.iterate_add_apply]
  · rw [hbuffer', hbuffer, List.foldl_append]
  · rw [second.others, first.others]

theorem mustered_select (t : Trainer Q) (n : Nat) :
    Mustered t { t with schedule := Exploration.decayOnce^[n] t.schedule } := by
  induction n with
  | zero => exact .refl t
  | succ n ih =>
    rw [Function.iterate_succ_apply']
    exact ih.trans ⟨⟨[.selected 0], rfl, rfl⟩, rfl, rfl⟩

theorem mustered_takeIn (t : Trainer Q) (result : Except TrainingError Episode) (rng : Rng) :
    Mustered t { t with buffer := Round.takeIn t.buffer result rng } := by
  cases result with
  | error e => exact .refl t
  | ok e => exact ⟨⟨[.pushed 0 e rng], rfl, rfl⟩, rfl, rfl⟩

variable [Approximator Q]

/-- In whatever order the workers of a round take turns, they leave what jobs may leave. -/
theorem mustered_run (plan : Plan σ Q) (worlds : Nat → World σ) (t : Trainer Q)
    (jobs : List (Nat × UInt64)) (turns : List Nat) {programs : List Program}
    (length : programs.length = t.programs.length) :
    let r := (Round.start worlds t jobs).run plan turns
    Mustered t { t with programs, schedule := r.schedule, buffer := r.buffer } := by
  intro r
  have h : Round.Logged (Round.start worlds t jobs) r :=
    (Round.logged_start worlds t jobs).run turns
  exact ⟨⟨r.log, h.schedule, h.buffer⟩, length, rfl⟩

theorem mustered_runJob (tc : Toolchain σ) {i : Nat} (seed : UInt64) {l : Lab σ Q}
    (inside : i < l.trainer.programs.length) :
    ∃ result l', runJob tc i seed l = .ok result l' ∧ Mustered l.trainer l'.trainer := by
  obtain ⟨result, x, hx, _, hjob⟩ := runJob_outcome tc (List.getElem?_eq_getElem inside) seed
  obtain ⟨n, hn⟩ := Walk.schedule_outcome (planOf tc l.trainer)
    (.arriving, ⟨⟨l.world, l.trainer.programs[i]⟩, ⟨l.trainer.schedule, .ofSeed seed⟩⟩)
  rw [← hx] at hn
  refine ⟨_, _, hjob, ?_⟩
  rw [hn]
  have put : Mustered l.trainer
      { l.trainer with programs := l.trainer.programs.set i x.2.bench.program } :=
    ⟨⟨[], rfl, rfl⟩, List.length_set, rfl⟩
  exact (put.trans (mustered_select _ n)).trans (mustered_takeIn _ result x.2.explorer.rng)

/-- Jobs that are done one after another are done by an orderly crew. -/
theorem orderly_runJobs (tc : Toolchain σ) : Orderly (runJobs tc : Crew σ Q) := by
  intro jobs
  induction jobs with
  | nil => exact fun l _ _ => ⟨[], l, rfl, rfl, .refl _⟩
  | cons job rest ih =>
    intro l distinct inside
    obtain ⟨i, seed⟩ := job
    obtain ⟨result, l₁, hjob, hfirst⟩ := mustered_runJob tc seed (inside _ List.mem_cons_self)
    obtain ⟨results, l', hjobs, hlength, hrest⟩ := ih l₁ (List.nodup_cons.1 distinct).2
      fun job hjob => by rw [hfirst.length]; exact inside job (List.mem_cons_of_mem _ hjob)
    refine ⟨result :: results, l', ?_, congrArg Nat.succ hlength, hfirst.trans hrest⟩
    unfold runJobs
    rw [EStateM.bind_of_ok hjob, EStateM.bind_of_ok hjobs]
    rfl

end Mustered

variable [Approximator Q]

/-- A round whose jobs a crew does. -/
def runRoundBy (tc : Toolchain σ) (crew : Crew σ Q) (workers : Nat) : Training σ Q Unit := do
  finishJobs tc (← crew (← ofTrainer (Trainer.pickSome workers)))

/-- Training whose rounds are for a crew. -/
def trainForBy (tc : Toolchain σ) (crew : Crew σ Q) : Nat → Training σ Q Unit
  | 0 => return ()
  | turns + 1 => do
    let t ← trainer
    if t.episodes < t.settings.maxEpisodes then
      if 1 < roundSize t then runRoundBy tc crew (roundSize t)
      else
        let _ ← runEpisode tc
      trainForBy tc crew turns

def trainBy (tc : Toolchain σ) (crew : Crew σ Q) : Training σ Q TrainingReport := do
  trainForBy tc crew (← trainer).settings.maxEpisodes
  return (← trainer).report

/-- Training that does its jobs one after another is training by that crew. -/
theorem trainBy_runJobs (tc : Toolchain σ) :
    (trainBy tc (runJobs tc) : Training σ Q TrainingReport) = train tc := by
  have hfor (turns : Nat) : (trainForBy tc (runJobs tc) turns : Training σ Q Unit) =
      trainFor tc turns := by
    induction turns with
    | zero => rfl
    | succ turns ih =>
      unfold trainForBy trainFor
      rw [ih]
      rfl
  unfold trainBy train
  simp only [hfor]

/-! ## What crews keep -/

namespace Kept

variable {tc : Toolchain σ} {J : Lab σ Q → Prop} {E : TrainingError → Prop} {crew : Crew σ Q}

section Crew

variable (h : Kept tc J E)
  (hc : ∀ jobs, Ends J E (fun results => ∀ e, .error e ∈ results → E e) (crew jobs))

include h hc

theorem runRoundBy (workers : Nat) : Fine J E (runRoundBy tc crew workers) :=
  (h.pickSome workers).bind fun jobs _ => (hc jobs).bind fun _ hresults => h.finishJobs hresults

theorem trainForBy (turns : Nat) : Fine J E (trainForBy tc crew turns) := by
  induction turns with
  | zero => exact fine_pure ()
  | succ turns ih =>
    unfold Training.trainForBy
    refine fine_trainer.bind fun t _ => ?_
    split
    · dsimp only
      split
      · exact (h.runRoundBy hc _).bind fun _ _ => ih
      · exact h.runEpisode.bind fun _ _ => ih
    · exact fine_pure ()

/-- What rollouts keep, and the crew for the rounds, training keeps. -/
theorem trainBy : Fine J E (trainBy tc crew) :=
  fine_trainer.bind fun _ _ => (h.trainForBy hc _).bind fun _ _ =>
    fine_trainer.bind fun _ _ => fine_pure _

end Crew

/-- What rollouts keep, every call keeps. -/
theorem perform (h : Kept tc J E) (call : Call) : Fine J E (perform tc call) := by
  cases call with
  | runEpisode => exact h.runEpisode.bind fun _ _ => fine_pure _
  | train =>
    have htrain := h.trainBy h.runJobs
    rw [trainBy_runJobs] at htrain
    exact htrain.bind fun _ _ => fine_pure _
  | learn => exact h.learn.bind fun _ _ => fine_pure _
  | evaluate => exact h.evaluate.bind fun _ _ => fine_pure _

end Kept

end Training

end PassTuner
