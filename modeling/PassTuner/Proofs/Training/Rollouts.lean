import PassTuner.Proofs.Training.Keeping

/-!
# The rollouts of a call

A call performs rollouts one after another, of programs to train on and of those held out, each from
where the one before left the lab. Here they are listed with what they go by and where they start.
Main statement: a call that comes to an answer had no rollout that came to an error.
-/

namespace PassTuner

variable {σ Q α β : Type}

/-- A rollout that is to start: what it goes by, and the bench and explorer it starts with. -/
structure Start (σ Q : Type) where
  plan : Plan σ Q
  trail : Trail σ

/-- The rollout comes to an answer. -/
def Start.Succeeds [Approximator Q] (s : Start σ Q) : Prop :=
  ∃ r t, Walk.rollout s.plan.tools s.plan.catalog s.plan.online s.plan.maxSteps s.trail = .ok r t

namespace Training

/-- The rollouts of what goes on from where a computation ended, if it ended in an answer. -/
def startsAfter (x : Training σ Q α) (next : α → Lab σ Q → List (Start σ Q)) (l : Lab σ Q) :
    List (Start σ Q) :=
  match x l with
  | .ok a l => next a l
  | .error _ _ => []

def rolloutStarts (tc : Toolchain σ) (role : Role) (i : Nat) (rng : Rng) (l : Lab σ Q) :
    List (Start σ Q) :=
  match (programsOf l.trainer role)[i]? with
  | none => []
  | some p => [⟨planOf tc l.trainer, ⟨l.world, p⟩, l.trainer.schedule, rng⟩]

variable [Approximator Q]

def evaluateFromStarts (tc : Toolchain σ) : Nat → Nat → Lab σ Q → List (Start σ Q)
  | 0, _, _ => []
  | n + 1, i, l =>
    match l.trainer.holdout[i]? with
    | none => []
    | some p =>
      rolloutStarts tc .heldOut i l.trainer.rng l ++
        startsAfter (rolloutNext tc .heldOut i) (fun r l =>
          match resultOf l.trainer.catalog p p.baseCost? r with
          | .error _ => []
          | .ok _ => evaluateFromStarts tc n (i + 1) l) l

def evaluateStarts (tc : Toolchain σ) (l : Lab σ Q) : List (Start σ Q) :=
  evaluateFromStarts tc l.trainer.holdout.length 0 { l with trainer := greedily l.trainer }

def evaluateIfDueStarts (tc : Toolchain σ) (l : Lab σ Q) : List (Start σ Q) :=
  if !l.trainer.holdout.isEmpty && l.trainer.episodes % l.trainer.settings.evalInterval = 0 then
    evaluateStarts tc l
  else []

def finishEpisodeStarts (tc : Toolchain σ) : Lab σ Q → List (Start σ Q) :=
  startsAfter (modifyTrainer fun t => { t with episodes := t.episodes + 1 }) fun _ l =>
    if l.trainer.episodes % l.trainer.settings.updateInterval = 0 then
      startsAfter learn (fun _ => evaluateIfDueStarts tc) l
    else evaluateIfDueStarts tc l

def runEpisodeStarts (tc : Toolchain σ) (l : Lab σ Q) : List (Start σ Q) :=
  startsAfter (ofTrainer Trainer.pick) (fun i l =>
    rolloutStarts tc .trained i l.trainer.rng l ++
      startsAfter (rolloutNext tc .trained i) (fun r =>
        startsAfter (modifyTrainer fun t =>
            { t with buffer := (t.buffer.push r.episode t.rng).1,
                     rng := (t.buffer.push r.episode t.rng).2 })
          fun _ => finishEpisodeStarts tc) l) l

def runJobsStarts (tc : Toolchain σ) : List (Nat × UInt64) → Lab σ Q → List (Start σ Q)
  | [], _ => []
  | (i, seed) :: rest, l =>
    rolloutStarts tc .trained i (.ofSeed seed) l ++
      startsAfter (runJob tc i seed) (fun _ => runJobsStarts tc rest) l

def finishJobsStarts (tc : Toolchain σ) :
    List (Except TrainingError Unit) → Lab σ Q → List (Start σ Q)
  | [], _ => []
  | .error _ :: _, _ => []
  | .ok () :: rest, l =>
    finishEpisodeStarts tc l ++ startsAfter (finishEpisode tc) (fun _ => finishJobsStarts tc rest) l

def runRoundStarts (tc : Toolchain σ) (workers : Nat) (l : Lab σ Q) : List (Start σ Q) :=
  startsAfter (ofTrainer (Trainer.pickSome workers)) (fun jobs l =>
    runJobsStarts tc jobs l ++ startsAfter (runJobs tc jobs) (finishJobsStarts tc) l) l

def trainForStarts (tc : Toolchain σ) : Nat → Lab σ Q → List (Start σ Q)
  | 0, _ => []
  | turns + 1, l =>
    if l.trainer.episodes < l.trainer.settings.maxEpisodes then
      if 1 < roundSize l.trainer then
        runRoundStarts tc (roundSize l.trainer) l ++
          startsAfter (runRound tc (roundSize l.trainer)) (fun _ => trainForStarts tc turns) l
      else
        runEpisodeStarts tc l ++ startsAfter (runEpisode tc) (fun _ => trainForStarts tc turns) l
    else []

/-- The rollouts of a call. -/
def starts (tc : Toolchain σ) (l : Lab σ Q) : Call → List (Start σ Q)
  | .runEpisode => runEpisodeStarts tc l
  | .train => trainForStarts tc l.trainer.settings.maxEpisodes l
  | .learn => []
  | .evaluate => evaluateStarts tc l

theorem evaluateFrom_eq (tc : Toolchain σ) (n i : Nat) (l : Lab σ Q) : evaluateFrom tc (n + 1) i l =
    match l.trainer.holdout[i]? with
    | none => .ok [] l
    | some p => (rolloutNext tc .heldOut i >>= fun r => trainer >>= fun t =>
        match resultOf t.catalog p p.baseCost? r with
        | .error e => throw e
        | .ok result => evaluateFrom tc n (i + 1) >>= fun results => pure (result :: results) :
        Training σ Q (List ProgramResult)) l := by
  conv => lhs; unfold evaluateFrom
  change (match l.trainer.holdout[i]? with | none => _ | some p => _ :
    Training σ Q (List ProgramResult)) l = _
  cases l.trainer.holdout[i]? <;> rfl

/-! ## Rollouts that succeed -/

variable {tc : Toolchain σ} {A : α → Prop} {B : β → Prop} {x : Training σ Q α}
  {f : α → Training σ Q β} {ss : Lab σ Q → List (Start σ Q)}
  {next : α → Lab σ Q → List (Start σ Q)}

/-- When a computation comes to an answer of a kind, all of its rollouts succeeded. -/
def Covers (A : α → Prop) (x : Training σ Q α) (ss : Lab σ Q → List (Start σ Q)) : Prop :=
  ∀ l a l', x l = .ok a l' → A a → ∀ s ∈ ss l, s.Succeeds

/-- The same of whatever answer. -/
abbrev CoversAll (x : Training σ Q α) (ss : Lab σ Q → List (Start σ Q)) : Prop :=
  Covers (fun _ => True) x ss

theorem covers_none (x : Training σ Q α) : Covers A x fun _ => [] :=
  fun _ _ _ _ _ _ hs => absurd hs List.not_mem_nil

/-- What goes on must tell by its answer that what came before was of its kind. -/
theorem Covers.bind (first : Covers A x ss) (second : ∀ a, Covers B (f a) (next a))
    (back : ∀ a, AllAnswers (fun b => B b → A a) (f a)) :
    Covers B (x >>= f) fun l => ss l ++ startsAfter x next l := by
  intro l b l' h hb s hs
  obtain ⟨a, l₁, hx, hf⟩ := EStateM.of_bind_ok h
  rcases List.mem_append.1 hs with hs | hs
  · exact first l a l₁ hx (back a l₁ b l' hf hb) s hs
  · simp only [startsAfter, hx] at hs
    exact second a l₁ b l' hf hb s hs

theorem CoversAll.bind (first : CoversAll x ss) (second : ∀ a, Covers B (f a) (next a)) :
    Covers B (x >>= f) fun l => ss l ++ startsAfter x next l :=
  Covers.bind first second fun _ _ _ _ _ _ => trivial

/-- What has no rollouts of its own may come first. -/
theorem covers_after (x : Training σ Q α) (second : ∀ a, Covers B (f a) (next a)) :
    Covers B (x >>= f) (startsAfter x next) :=
  CoversAll.bind (covers_none x) second

/-- What has no rollouts of its own may come last. -/
theorem Covers.before (first : Covers A x ss) (back : ∀ a, AllAnswers (fun b => B b → A a) (f a)) :
    Covers B (x >>= f) ss := by
  intro l b l' h hb
  obtain ⟨a, l₁, hx, hf⟩ := EStateM.of_bind_ok h
  exact first l a l₁ hx (back a l₁ b l' hf hb)

theorem CoversAll.before (first : CoversAll x ss) (f : α → Training σ Q β) :
    CoversAll (x >>= f) ss :=
  Covers.before first fun _ _ _ _ _ _ => trivial

/-- Looking at the trainer comes first. -/
theorem covers_trainer {f : Trainer Q → Training σ Q β}
    (h : ∀ l b l', f l.trainer l = .ok b l' → B b → ∀ s ∈ ss l, s.Succeeds) :
    Covers B (trainer >>= f) ss :=
  fun l b l' hb => h l b l' hb

theorem covers_rollout (tc : Toolchain σ) (role : Role) (i : Nat) (rng : Rng) :
    Covers (fun rolled => ∃ r, rolled.1 = .ok r) (rollout tc role i rng : Training σ Q _)
      (rolloutStarts tc role i rng) := by
  intro l rolled l' h ⟨r, hr⟩ s hs
  unfold rolloutStarts at hs
  unfold rollout at h
  cases hp : (programsOf l.trainer role)[i]? with
  | none =>
    rw [hp] at hs
    exact absurd hs List.not_mem_nil
  | some p =>
    rw [hp] at hs
    rw [hp] at h
    obtain rfl := List.mem_singleton.1 hs
    dsimp only at h
    cases hwalk : Walk.rollout tc l.trainer.catalog l.trainer.online l.trainer.settings.maxSteps
        ⟨⟨l.world, p⟩, ⟨l.trainer.schedule, rng⟩⟩ with
    | ok r' t => exact ⟨r', t, hwalk⟩
    | error e t =>
      rw [hwalk] at h
      cases h
      cases hr

theorem covers_rolloutNext (tc : Toolchain σ) (role : Role) (i : Nat) :
    CoversAll (rolloutNext tc role i : Training σ Q Rollout) fun l =>
      rolloutStarts tc role i l.trainer.rng l := by
  intro l r l' h hr
  rw [rolloutNext_eq] at h
  refine (covers_rollout tc role i l.trainer.rng).before (B := fun _ => True) (fun rolled => ?_)
    l r l' h hr
  refine .bind fun _ => ?_
  obtain ⟨result, rng⟩ := rolled
  cases result with
  | ok r => exact .pure fun _ => ⟨r, rfl⟩
  | error e => exact .throw

theorem covers_evaluateFrom (tc : Toolchain σ) (n i : Nat) :
    CoversAll (evaluateFrom tc n i : Training σ Q (List ProgramResult))
      (evaluateFromStarts tc n i) := by
  induction n generalizing i with
  | zero => exact covers_none _
  | succ n ih =>
    unfold evaluateFrom
    refine covers_trainer fun l => ?_
    unfold evaluateFromStarts
    cases l.trainer.holdout[i]? with
    | none => exact covers_none _ l
    | some p =>
      refine CoversAll.bind (covers_rolloutNext tc .heldOut i) (fun r => ?_) l
      refine covers_trainer fun l => ?_
      cases resultOf l.trainer.catalog p p.baseCost? r with
      | error e => exact covers_none _ l
      | ok result => exact (ih (i + 1)).before _ l

theorem covers_evaluate (tc : Toolchain σ) :
    CoversAll (evaluate tc : Training σ Q Evaluation) (evaluateStarts tc) := by
  have hholdout : CoversAll (evaluateHoldout tc : Training σ Q Evaluation) fun l =>
      evaluateFromStarts tc l.trainer.holdout.length 0 l :=
    covers_trainer fun l => (covers_evaluateFrom tc _ _).before _ l
  intro l evaluation l' h
  unfold evaluate at h
  cases he : evaluateHoldout tc { l with trainer := greedily l.trainer } with
  | error e l₁ =>
    rw [he] at h
    cases h
  | ok e l₁ => exact hholdout _ e l₁ he

theorem covers_evaluateIfDue (tc : Toolchain σ) :
    CoversAll (evaluateIfDue tc : Training σ Q Unit) (evaluateIfDueStarts tc) := by
  refine covers_trainer fun l => ?_
  unfold evaluateIfDueStarts
  split
  · exact (covers_evaluate tc).before _ l
  · exact covers_none _ l

theorem covers_finishEpisode (tc : Toolchain σ) :
    CoversAll (finishEpisode tc : Training σ Q Unit) (finishEpisodeStarts tc) := by
  rw [finishEpisode_eq]
  refine covers_after _ fun _ => covers_trainer fun l => ?_
  split
  · exact covers_after learn (fun _ => covers_evaluateIfDue tc) l
  · exact covers_evaluateIfDue tc l

theorem covers_runEpisode (tc : Toolchain σ) :
    CoversAll (runEpisode tc : Training σ Q Nat) (runEpisodeStarts tc) := by
  rw [runEpisode_eq]
  refine covers_after _ fun i => CoversAll.bind (covers_rolloutNext tc .trained i) fun r => ?_
  exact covers_after _ fun _ => (covers_finishEpisode tc).before _

/-- A job succeeds just when its rollout does. -/
theorem covers_runJob (tc : Toolchain σ) (i : Nat) (seed : UInt64) :
    Covers (· = .ok ()) (runJob tc i seed : Training σ Q _)
      (rolloutStarts tc .trained i (.ofSeed seed)) := by
  rw [runJob_eq]
  refine (covers_rollout tc .trained i _).before fun rolled => ?_
  obtain ⟨result, rng⟩ := rolled
  cases result with
  | error e => exact .pure nofun
  | ok r => exact .bind fun _ => .pure fun _ => ⟨r, rfl⟩

theorem covers_runJobs (tc : Toolchain σ) (jobs : List (Nat × UInt64)) :
    Covers (fun results => ∀ result ∈ results, result = .ok ()) (runJobs tc jobs : Training σ Q _)
      (runJobsStarts tc jobs) := by
  induction jobs with
  | nil => exact covers_none _
  | cons job rest ih =>
    unfold runJobs
    refine Covers.bind (covers_runJob tc job.1 job.2) (fun result => ?_) fun result => ?_
    · refine ih.before fun results => .pure fun hall result hresult => ?_
      exact hall result (List.mem_cons_of_mem _ hresult)
    · exact .bind fun results => .pure fun hall => hall result List.mem_cons_self

/-- Episodes are not finished past one that failed. -/
theorem answers_finishJobs (tc : Toolchain σ) (results : List (Except TrainingError Unit)) :
    AllAnswers (fun _ => ∀ result ∈ results, result = .ok ())
      (finishJobs tc results : Training σ Q Unit) := by
  induction results with
  | nil => exact .pure fun _ h => absurd h List.not_mem_nil
  | cons result rest ih =>
    cases result with
    | error e => exact .throw
    | ok _ =>
      refine .bind fun _ s a s' h result hresult => ?_
      rcases List.mem_cons.1 hresult with rfl | hrest
      · rfl
      · exact ih s a s' h result hrest

theorem covers_finishJobs (tc : Toolchain σ) (results : List (Except TrainingError Unit)) :
    CoversAll (finishJobs tc results : Training σ Q Unit) (finishJobsStarts tc results) := by
  induction results with
  | nil => exact covers_none _
  | cons result rest ih =>
    cases result with
    | error e => exact covers_none _
    | ok _ => exact CoversAll.bind (covers_finishEpisode tc) fun _ => ih

theorem covers_runRound (tc : Toolchain σ) (workers : Nat) :
    CoversAll (runRound tc workers : Training σ Q Unit) (runRoundStarts tc workers) := by
  refine covers_after _ fun jobs => Covers.bind (covers_runJobs tc jobs) (covers_finishJobs tc)
    fun results s a s' h _ => answers_finishJobs tc results s a s' h

theorem covers_trainFor (tc : Toolchain σ) (turns : Nat) :
    CoversAll (trainFor tc turns : Training σ Q Unit) (trainForStarts tc turns) := by
  induction turns with
  | zero => exact covers_none _
  | succ turns ih =>
    unfold trainFor
    refine covers_trainer fun l => ?_
    unfold trainForStarts
    split
    · dsimp only
      split
      · exact CoversAll.bind (covers_runRound tc _) (fun _ => ih) l
      · exact CoversAll.bind (covers_runEpisode tc) (fun _ => ih) l
    · exact covers_none _ l

/-- A call that comes to an answer had no rollout that came to an error. -/
theorem covers_perform (tc : Toolchain σ) (call : Call) (l : Lab σ Q) {l' : Lab σ Q}
    (h : perform tc call l = .ok () l') : ∀ s ∈ starts tc l call, s.Succeeds := by
  cases call with
  | runEpisode => exact (covers_runEpisode tc).before _ l () l' h trivial
  | train =>
    have htrain : CoversAll (train tc : Training σ Q TrainingReport) fun l =>
        trainForStarts tc l.trainer.settings.maxEpisodes l :=
      covers_trainer fun l => (covers_trainFor tc _).before _ l
    exact htrain.before _ l () l' h trivial
  | learn => exact fun _ hs => absurd hs List.not_mem_nil
  | evaluate => exact (covers_evaluate tc).before _ l () l' h trivial

end Training

end PassTuner
