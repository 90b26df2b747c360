import PassTuner.Proofs.Training.Rounds

/-!
# What turns keep, and what calls keep

What each turn of a rollout keeps, the rollout keeps, also when workers take their turns in between.
And what rollouts keep, each call of a trainer keeps, because all else that it does leaves programs
and world alone. Each of the two inductions is made here once, for answers and errors alike.
-/

namespace PassTuner

variable {σ Q α β : Type}

namespace Training

variable {J : Lab σ Q → Prop} {E : TrainingError → Prop}

/-- What comes out of a call, if it is no error, is of no interest. -/
abbrev Fine (J : Lab σ Q → Prop) (E : TrainingError → Prop) (x : Training σ Q α) : Prop :=
  Ends J E (fun _ => True) x

theorem fine_pure (a : α) : Fine J E (pure a : Training σ Q α) := ends_pure trivial

theorem fine_trainer : Fine J E (trainer : Training σ Q (Trainer Q)) := fun _ hl => ⟨hl, trivial⟩

theorem isStepFailure_of_sample {b : Replay} {batchSize : Nat} {rng : Rng} {e : TrainingError}
    (h : b.sample batchSize rng = .error e) : e.isStepFailure = false := by
  unfold Replay.sample at h
  split at h
  · cases h
    rfl
  · dsimp only at h
    split at h <;> cases h

end Training

/-! ## Turns -/

variable [Approximator Q] {plan : Plan σ Q} {P : Walk.Phase → Bench σ → Prop}

/-- Each turn keeps what holds of a rollout, of where it is and of its bench. -/
def Walk.Stable (plan : Plan σ Q) (P : Phase → Bench σ → Prop) : Prop :=
  ∀ phase t, phase.result? = none → P phase t.bench →
    P (turn plan (phase, t)).1 (turn plan (phase, t)).2.bench

namespace Walk.Stable

/-- What holds of a rollout on its way holds in the end. -/
theorem outcome (h : Stable plan P) {x : Phase × Trail σ} (hx : P x.1 x.2.bench) :
    P (Walk.outcome plan x).1 (Walk.outcome plan x).2.bench := by
  -- the end is nearer after each turn
  induction hn : x.1.left plan.maxSteps using Nat.strongRecOn generalizing x with
  | ind n ih =>
    cases hr : x.1.result? with
    | some result =>
      rw [outcome_of_gone (by simp [hr])]
      exact hx
    | none =>
      rw [← outcome_turn]
      exact ih _ (hn ▸ left_turn hr) (h x.1 x.2 hr hx) rfl

/-- What holds of a rollout at its start holds in the end. -/
theorem rollout (h : Stable plan P) {t : Trail σ} (ht : P .arriving t.bench) :
    match Walk.rollout plan.tools plan.catalog plan.online plan.maxSteps t with
    | .ok r t' => P (.gone (.ok r.episode)) t'.bench
    | .error e t' => P (.gone (.error e)) t'.bench := by
  have hend := h.outcome (x := (.arriving, t)) ht
  rw [outcome_arriving] at hend
  cases hr : Walk.rollout plan.tools plan.catalog plan.online plan.maxSteps t with
  | ok r t' => rwa [hr] at hend
  | error e t' => rwa [hr] at hend

end Walk.Stable

namespace Training

/-- What is kept by turns holds of a worker; who has taken in its rollout is as before that. -/
def Worker.Satisfies (P : Walk.Phase → Bench σ → Prop) (w : Worker σ) : Prop :=
  match w.task with
  | .rolling phase => P phase w.bench
  | .ended result => P (.gone result) w.bench

theorem stepped_satisfies (h : Walk.Stable plan P) (s : Exploration) {w : Worker σ}
    (hw : w.Satisfies P) : (Round.stepped plan s w).Satisfies P := by
  unfold Round.stepped
  unfold Worker.Satisfies at hw
  cases ht : w.task with
  | ended result =>
    rw [ht] at hw
    simpa only [Worker.Satisfies, ht] using hw
  | rolling phase =>
    rw [ht] at hw
    dsimp only at hw ⊢
    cases hr : phase.result? with
    | none => exact h phase (w.trail s) hr hw
    | some result =>
      cases phase <;> cases hr
      exact hw

/-- What turns keep and holds of a worker holds of it after all turns of a round. -/
theorem run_satisfies (h : Walk.Stable plan P) {r : Round σ} {i : Nat}
    (hi : ∀ w ∈ r.workers[i]?, w.Satisfies P) (turns : List Nat) :
    ∀ w ∈ (r.run plan turns).workers[i]?, w.Satisfies P := by
  induction turns generalizing r with
  | nil => exact hi
  | cons j turns ih =>
    refine ih (r := r.turn plan j) fun w hw => ?_
    rw [Round.workers_turn, List.getElem?_modify] at hw
    obtain ⟨w₀, hw₀, rfl⟩ := Option.map_eq_some_iff.1 hw
    split
    · exact stepped_satisfies h _ (hi w₀ hw₀)
    · exact hi w₀ hw₀

/-- Workers do not get lost. -/
theorem length_run (plan : Plan σ Q) (r : Round σ) (turns : List Nat) :
    (r.run plan turns).workers.length = r.workers.length := by
  induction turns generalizing r with
  | nil => rfl
  | cons j turns ih =>
    refine (ih (r.turn plan j)).trans ?_
    rw [Round.workers_turn, List.length_modify]

/-! ## Calls -/

theorem isStepFailure_of_fitted {t : Trainer Q} {batch : List Transition} {e : TrainingError}
    (h : t.fitted batch = .error e) : e.isStepFailure = false := by
  unfold Trainer.fitted at h
  split at h
  · cases h
    rfl
  split at h <;> cases h
  rfl

theorem isStepFailure_of_learned {t : Trainer Q} {e : TrainingError} (h : t.learned = .error e) :
    e.isStepFailure = false := by
  unfold Trainer.learned at h
  split at h
  · cases h
  split at h
  · rename_i hsample
    cases h
    exact isStepFailure_of_sample hsample
  dsimp only at h
  split at h
  · cases h
  rename_i batch buffer rng _ _
  cases hfitted : Trainer.fitted { t with buffer, rng } batch with
  | error e' =>
    rw [hfitted] at h
    cases h
    exact isStepFailure_of_fitted hfitted
  | ok made =>
    rw [hfitted] at h
    cases h

theorem isStepFailure_of_resultOf {catalog : Catalog} {p : Program} {cost : Option Float}
    {r : Rollout} {e : TrainingError} (h : resultOf catalog p cost r = .error e) :
    e.isStepFailure = false := by
  unfold resultOf at h
  extract_lets at h
  split at h <;> cases h
  rfl

/-- The evaluation that may be due after an episode. -/
def evaluateIfDue (tc : Toolchain σ) : Training σ Q Unit := do
  let t ← trainer
  if !t.holdout.isEmpty && t.episodes % t.settings.evalInterval = 0 then
    let evaluation ← evaluate tc
    modifyTrainer fun t => { t with evaluations := t.evaluations ++ [evaluation] }

theorem finishEpisode_eq (tc : Toolchain σ) : finishEpisode tc =
    (modifyTrainer (fun t => { t with episodes := t.episodes + 1 }) >>= fun _ =>
      trainer >>= fun t =>
        if t.episodes % t.settings.updateInterval = 0 then learn >>= fun _ => evaluateIfDue tc
        else evaluateIfDue tc : Training σ Q Unit) := rfl

/-- What rollouts keep, when nothing of a trainer matters but its programs. The errors that a
trainer makes by itself are no step failures. -/
structure Kept (tc : Toolchain σ) (J : Lab σ Q → Prop) (E : TrainingError → Prop) : Prop where
  rollout : ∀ role i rng, Ends J E (fun rolled => ∀ e, rolled.1 = .error e → E e)
    (rollout tc role i rng)
  others : ∀ (l : Lab σ Q) (t : Trainer Q),
    (∀ role, programsOf t role = programsOf l.trainer role) →
    J l → J { l with trainer := t }
  own : ∀ e, e.isStepFailure = false → E e

namespace Kept

variable {tc : Toolchain σ} {J : Lab σ Q → Prop} {E : TrainingError → Prop} (h : Kept tc J E)

include h

theorem modifyTrainer {f : Trainer Q → Trainer Q}
    (same : ∀ t role, programsOf (f t) role = programsOf t role) :
    Fine J E (modifyTrainer f : Training σ Q Unit) :=
  fun l hl => ⟨h.others l _ (same l.trainer) hl, trivial⟩

theorem ofTrainer {f : Trainer Q → Except TrainingError (α × Trainer Q)}
    (same : ∀ t a t', f t = .ok (a, t') → ∀ role, programsOf t' role = programsOf t role)
    (own : ∀ t e, f t = .error e → e.isStepFailure = false) :
    Fine J E (ofTrainer f : Training σ Q α) := by
  intro l hl
  unfold Training.ofTrainer
  cases hf : f l.trainer with
  | error e => exact ⟨hl, h.own e (own _ _ hf)⟩
  | ok made =>
    obtain ⟨a, t'⟩ := made
    exact ⟨h.others l t' (same _ _ _ hf) hl, trivial⟩

theorem pick : Fine J E (Training.ofTrainer Trainer.pick : Training σ Q Nat) := by
  refine h.ofTrainer (fun t i t' heq => ?_) fun t e heq => ?_
  · obtain ⟨rng, rfl⟩ := Trainer.of_pick heq
    exact fun role => by cases role <;> rfl
  · unfold Trainer.pick at heq
    split at heq <;> cases heq
    rfl

theorem pickSome (workers : Nat) : Fine J E
    (Training.ofTrainer (Trainer.pickSome workers) : Training σ Q (List (Nat × UInt64))) := by
  refine h.ofTrainer (fun t i t' heq => ?_) fun t e heq => ?_
  · obtain ⟨rng, rfl⟩ := Trainer.of_pickSome heq
    exact fun role => by cases role <;> rfl
  · unfold Trainer.pickSome at heq
    split at heq <;> cases heq
    rfl

theorem learn : Fine J E (learn : Training σ Q (Option Float32)) := by
  refine h.ofTrainer (fun t loss t' heq => ?_) fun t e heq => ?_
  · cases Trainer.learns_of_ok heq <;> exact fun role => by cases role <;> rfl
  · exact isStepFailure_of_learned heq

theorem rolloutNext (role : Role) (i : Nat) : Fine J E (rolloutNext tc role i) := by
  unfold Training.rolloutNext
  refine fine_trainer.bind fun t _ => (h.rollout role i t.rng).bind fun (result, rng) hresult => ?_
  refine (h.modifyTrainer fun _ role => by cases role <;> rfl).bind fun _ _ => ?_
  cases result with
  | ok r => exact fine_pure r
  | error e => exact ends_throw (hresult e rfl)

theorem evaluateFrom (n i : Nat) : Fine J E (evaluateFrom tc n i) := by
  induction n generalizing i with
  | zero => exact fine_pure _
  | succ n ih =>
    unfold Training.evaluateFrom
    refine fine_trainer.bind fun t _ => ?_
    cases t.holdout[i]? with
    | none => exact fine_pure _
    | some p =>
      refine (h.rolloutNext .heldOut i).bind fun r _ => fine_trainer.bind fun t _ => ?_
      cases hresult : resultOf t.catalog p p.baseCost? r with
      | error e => exact ends_throw (h.own e (isStepFailure_of_resultOf hresult))
      | ok result => exact (ih (i + 1)).bind fun _ _ => fine_pure _

theorem evaluate : Fine J E (evaluate tc) := by
  have hholdout : Fine J E (evaluateHoldout tc) :=
    fine_trainer.bind fun t _ => (h.evaluateFrom _ _).bind fun _ _ => fine_pure _
  intro l hl
  have hgreedy :=
    hholdout _ (h.others l (greedily l.trainer) (fun role => by cases role <;> rfl) hl)
  have back {l₁ : Lab σ Q} (hl₁ : J l₁) : J { l₁ with trainer := restored l.trainer l₁.trainer } :=
    h.others l₁ _ (fun role => by cases role <;> rfl) hl₁
  unfold Training.evaluate
  cases he : evaluateHoldout tc { l with trainer := greedily l.trainer } with
  | ok e l₁ =>
    rw [he] at hgreedy
    exact ⟨back hgreedy.1, trivial⟩
  | error e l₁ =>
    rw [he] at hgreedy
    exact ⟨back hgreedy.1, hgreedy.2⟩

theorem evaluateIfDue : Fine J E (evaluateIfDue tc) := by
  refine fine_trainer.bind fun t _ => ?_
  split
  · exact h.evaluate.bind fun evaluation _ => h.modifyTrainer fun _ role => by cases role <;> rfl
  · exact fine_pure ()

theorem finishEpisode : Fine J E (finishEpisode tc) := by
  rw [finishEpisode_eq]
  refine (h.modifyTrainer fun _ role => by cases role <;> rfl).bind fun _ _ =>
    fine_trainer.bind fun t _ => ?_
  split
  · exact h.learn.bind fun _ _ => h.evaluateIfDue
  · exact h.evaluateIfDue

theorem runEpisode : Fine J E (runEpisode tc) := by
  rw [runEpisode_eq]
  refine h.pick.bind fun i _ => (h.rolloutNext .trained i).bind fun r _ => ?_
  exact (h.modifyTrainer fun _ role => by cases role <;> rfl).bind fun _ _ =>
    h.finishEpisode.bind fun _ _ => fine_pure _

theorem runJob (i : Nat) (seed : UInt64) :
    Ends J E (fun result => ∀ e, result = .error e → E e) (runJob tc i seed) := by
  rw [runJob_eq]
  refine (h.rollout .trained i _).bind fun (result, rng) hresult => ?_
  cases result with
  | error e => exact ends_pure fun e' heq => hresult e' (by cases heq; rfl)
  | ok r =>
    exact (h.modifyTrainer fun _ role => by cases role <;> rfl).bind fun _ _ =>
      ends_pure fun e heq => by cases heq

theorem runJobs (jobs : List (Nat × UInt64)) :
    Ends J E (fun results => ∀ e, .error e ∈ results → E e) (runJobs tc jobs) := by
  induction jobs with
  | nil => exact ends_pure fun e he => absurd he List.not_mem_nil
  | cons job rest ih =>
    unfold Training.runJobs
    refine (h.runJob job.1 job.2).bind fun result hresult => ih.bind fun results hresults => ?_
    refine ends_pure fun e he => ?_
    rcases List.mem_cons.1 he with heq | hrest
    · exact hresult e heq.symm
    · exact hresults e hrest

theorem finishJobs {results : List (Except TrainingError Unit)}
    (ended : ∀ e, .error e ∈ results → E e) : Fine J E (finishJobs tc results) := by
  induction results with
  | nil => exact fine_pure ()
  | cons result rest ih =>
    cases result with
    | error e => exact ends_throw (ended e List.mem_cons_self)
    | ok _ =>
      exact h.finishEpisode.bind fun _ _ => ih fun e he => ended e (List.mem_cons_of_mem _ he)

end Kept

end Training

end PassTuner
