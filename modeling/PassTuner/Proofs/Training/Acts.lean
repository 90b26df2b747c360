import PassTuner.Proofs.Training.Crews

/-!
# A trainer at work

A trainer that was set up is asked for episodes, whole runs, gradient steps, evaluations and copies
of the online approximator, in any order, with any tools and crews, and on a disk that others may
have changed in between. Main statement: each act is a course of gradient steps, which are listed
here, and of changes that spare what belongs to the gradient steps.
-/

namespace PassTuner

variable {σ Q α β : Type}

namespace Training

/-! ## Acts -/

/-- What a trainer can be asked to do, with the tools it then has and the crew for its rounds. -/
inductive Act (σ Q : Type) where
  | episode (tc : Toolchain σ)
  | training (tc : Toolchain σ) (crew : Crew σ Q)
  | learning
  | evaluation (tc : Toolchain σ)
  | syncing

variable [Approximator Q]

namespace Act

/-- The crew for the rounds, if there are any, is an orderly one. -/
def IsOrderly : Act σ Q → Prop
  | .training _ crew => Orderly crew
  | _ => True

/-- Does what is asked for, whatever it answers. -/
def run : Act σ Q → Training σ Q Unit
  | .episode tc => do let _ ← runEpisode tc
  | .training tc crew => do let _ ← trainBy tc crew
  | .learning => do let _ ← learn
  | .evaluation tc => do let _ ← evaluate tc
  | .syncing => modifyTrainer Trainer.sync

end Act

/-- The trainer after acts in turn, each in a world as it is by then; an act that fails is followed
by the next. -/
def conduct (t : Trainer Q) : List (World σ × Act σ Q) → Trainer Q
  | [] => t
  | (w, act) :: rest => conduct (after act.run ⟨w, t⟩).trainer rest

/-! ## The gradient steps of an act -/

/-- What is noted of what goes on from where a computation ended, if it ended in an answer. -/
def notedAfter {τ : Type} (x : Training σ Q α) (next : α → Lab σ Q → List τ) (l : Lab σ Q) :
    List τ :=
  match x l with
  | .ok a l => next a l
  | .error _ _ => []

/-- The trainer right after a gradient step, if one is made. -/
def learnSteps (l : Lab σ Q) : List (Trainer Q) :=
  match l.trainer.learned with
  | .ok (some _, t) => [t]
  | _ => []

def finishEpisodeSteps : Lab σ Q → List (Trainer Q) :=
  notedAfter (modifyTrainer fun t => { t with episodes := t.episodes + 1 }) fun _ l =>
    if l.trainer.episodes % l.trainer.settings.updateInterval = 0 then learnSteps l else []

def runEpisodeSteps (tc : Toolchain σ) : Lab σ Q → List (Trainer Q) :=
  notedAfter (ofTrainer Trainer.pick) fun i =>
    notedAfter (rolloutNext tc .trained i) fun r =>
      notedAfter (modifyTrainer fun t =>
          { t with buffer := (t.buffer.push r.episode t.rng).1,
                   rng := (t.buffer.push r.episode t.rng).2 })
        fun _ => finishEpisodeSteps

def finishJobsSteps (tc : Toolchain σ) :
    List (Except TrainingError Unit) → Lab σ Q → List (Trainer Q)
  | [], _ => []
  | .error _ :: _, _ => []
  | .ok () :: rest, l =>
    finishEpisodeSteps l ++ notedAfter (finishEpisode tc) (fun _ => finishJobsSteps tc rest) l

def runRoundSteps (tc : Toolchain σ) (crew : Crew σ Q) (workers : Nat) :
    Lab σ Q → List (Trainer Q) :=
  notedAfter (ofTrainer (Trainer.pickSome workers)) fun jobs =>
    notedAfter (crew jobs) (finishJobsSteps tc)

def trainForSteps (tc : Toolchain σ) (crew : Crew σ Q) : Nat → Lab σ Q → List (Trainer Q)
  | 0, _ => []
  | turns + 1, l =>
    if l.trainer.episodes < l.trainer.settings.maxEpisodes then
      if 1 < roundSize l.trainer then
        runRoundSteps tc crew (roundSize l.trainer) l ++
          notedAfter (runRoundBy tc crew (roundSize l.trainer))
            (fun _ => trainForSteps tc crew turns) l
      else
        runEpisodeSteps tc l ++
          notedAfter (runEpisode tc) (fun _ => trainForSteps tc crew turns) l
    else []

def trainSteps (tc : Toolchain σ) (crew : Crew σ Q) (l : Lab σ Q) : List (Trainer Q) :=
  trainForSteps tc crew l.trainer.settings.maxEpisodes l

/-- The trainers right after the gradient steps of an act, in order. -/
def Act.steps : Act σ Q → Lab σ Q → List (Trainer Q)
  | .episode tc => runEpisodeSteps tc
  | .training tc crew => trainSteps tc crew
  | .learning => learnSteps
  | .evaluation _ => fun _ => []
  | .syncing => fun _ => []

/-! ## Courses -/

/-- Nothing is changed that belongs to the gradient steps, or that no act changes. -/
structure Spares (t t' : Trainer Q) : Prop where
  settings : t'.settings = t.settings
  catalog : t'.catalog = t.catalog
  target : t'.target = t.target
  gradientSteps : t'.gradientSteps = t.gradientSteps
  losses : t'.losses = t.losses
  floor : t'.schedule.floor = t.schedule.floor
  decay : t'.schedule.decay = t.schedule.decay

/-- From one trainer to another by gradient steps and by what spares what belongs to these. -/
inductive Course : Trainer Q → List (Trainer Q) → Trainer Q → Prop where
  | spared {t t' : Trainer Q} (h : Spares t t') : Course t [] t'
  | step {t t' : Trainer Q} {loss : Float32} (h : t.learned = .ok (some loss, t')) :
    Course t [t'] t'
  | trans {t t₁ t₂ : Trainer Q} {ts ts' : List (Trainer Q)} (first : Course t ts t₁)
    (second : Course t₁ ts' t₂) : Course t (ts ++ ts') t₂

/-- Work is a course with the gradient steps that are noted for it. -/
def Follows (x : Training σ Q α) (noted : Lab σ Q → List (Trainer Q)) : Prop :=
  ∀ l, Course l.trainer (noted l) (after x l).trainer

section Course

variable {t t' : Trainer Q} {x : Training σ Q α}
  {noted : Lab σ Q → List (Trainer Q)} {l l' : Lab σ Q}

omit [Approximator Q] in
theorem Spares.refl (t : Trainer Q) : Spares t t := ⟨rfl, rfl, rfl, rfl, rfl, rfl, rfl⟩

theorem Course.refl (t : Trainer Q) : Course t [] t := .spared (.refl t)

theorem Course.of_rolled {role : Role} (h : Rolled role t t') : Course t [] t' := by
  have hothers := h.others
  exact .spared ⟨by rw [hothers], by rw [hothers], by rw [hothers], by rw [hothers],
    by rw [hothers], h.floor, h.decay⟩

theorem Course.of_mustered (h : Mustered t t') : Course t [] t' := by
  obtain ⟨log, hn, _⟩ := h.shared
  have hfloor : t'.schedule.floor = t.schedule.floor := by rw [hn, Exploration.floor_iterate]
  have hdecay : t'.schedule.decay = t.schedule.decay := by rw [hn, Exploration.decay_iterate]
  have hothers := h.others
  exact .spared ⟨by rw [hothers], by rw [hothers], by rw [hothers], by rw [hothers],
    by rw [hothers], hfloor, hdecay⟩

theorem Follows.of_ok (h : Follows x noted) {a : α} (hx : x l = .ok a l') :
    Course l.trainer (noted l) l'.trainer := by
  have := h l
  rwa [after_of_ok hx] at this

theorem Follows.of_error (h : Follows x noted) {e : TrainingError} (hx : x l = .error e l') :
    Course l.trainer (noted l) l'.trainer := by
  have := h l
  rwa [after_of_error hx] at this

theorem follows_pure (a : α) : Follows (pure a : Training σ Q α) fun _ => [] :=
  fun l => .refl l.trainer

theorem follows_throw (e : TrainingError) : Follows (throw e : Training σ Q α) fun _ => [] :=
  fun l => .refl l.trainer

theorem Follows.bind {f : α → Training σ Q β} {next : α → Lab σ Q → List (Trainer Q)}
    (first : Follows x noted) (second : ∀ a, Follows (f a) (next a)) :
    Follows (x >>= f) fun l => noted l ++ notedAfter x next l := by
  intro l
  cases hx : x l with
  | error e l₁ =>
    simp only [after_bind_of_error hx, notedAfter, hx, List.append_nil]
    exact first.of_error hx
  | ok a l₁ =>
    simp only [after_bind_of_ok hx, notedAfter, hx]
    exact (first.of_ok hx).trans (second a l₁)

/-- What makes no gradient steps may come first. -/
theorem Follows.then {f : α → Training σ Q β} {next : α → Lab σ Q → List (Trainer Q)}
    (first : Follows x fun _ => []) (second : ∀ a, Follows (f a) (next a)) :
    Follows (x >>= f) (notedAfter x next) :=
  first.bind second

/-- What makes no gradient steps may come last. -/
theorem Follows.before {f : α → Training σ Q β} (first : Follows x noted)
    (second : ∀ a, Follows (f a) fun _ => []) : Follows (x >>= f) noted := by
  intro l
  have h := first.bind second l
  simp only [notedAfter] at h
  cases hx : x l <;> simpa only [hx, List.append_nil] using h

/-- Looking at the trainer comes first. -/
theorem follows_trainer {f : Trainer Q → Training σ Q β}
    (h : ∀ l, Course l.trainer (noted l) (after (f l.trainer) l).trainer) :
    Follows (trainer >>= f) noted := h

theorem follows_modifyTrainer {f : Trainer Q → Trainer Q} (h : ∀ t, Spares t (f t)) :
    Follows (modifyTrainer f : Training σ Q Unit) fun _ => [] :=
  fun l => .spared (h l.trainer)

theorem follows_ofTrainer {f : Trainer Q → Except TrainingError (α × Trainer Q)}
    (h : ∀ t a t', f t = .ok (a, t') → Spares t t') :
    Follows (ofTrainer f : Training σ Q α) fun _ => [] := by
  intro l
  unfold after ofTrainer
  cases hf : f l.trainer with
  | error e => exact .refl _
  | ok made => exact .spared (h _ _ _ hf)

theorem follows_pick : Follows (ofTrainer Trainer.pick : Training σ Q Nat) fun _ => [] := by
  refine follows_ofTrainer fun t i t' h => ?_
  obtain ⟨rng, rfl⟩ := Trainer.of_pick h
  exact ⟨rfl, rfl, rfl, rfl, rfl, rfl, rfl⟩

theorem follows_pickSome (workers : Nat) : Follows
    (ofTrainer (Trainer.pickSome workers) : Training σ Q (List (Nat × UInt64))) fun _ => [] := by
  refine follows_ofTrainer fun t i t' h => ?_
  obtain ⟨rng, rfl⟩ := Trainer.of_pickSome h
  exact ⟨rfl, rfl, rfl, rfl, rfl, rfl, rfl⟩

theorem follows_learn : Follows (learn : Training σ Q (Option Float32)) learnSteps := by
  intro l
  unfold learnSteps after learn ofTrainer
  cases h : l.trainer.learned with
  | error e => exact .refl _
  | ok made =>
    obtain ⟨loss?, t'⟩ := made
    cases Trainer.learns_of_ok h with
    | few _ => exact .refl _
    | blank _ _ => exact .spared ⟨rfl, rfl, rfl, rfl, rfl, rfl, rfl⟩
    | step _ _ _ _ _ => exact .step h

theorem follows_evaluate (tc : Toolchain σ) :
    Follows (evaluate tc : Training σ Q Evaluation) fun _ => [] := by
  intro l
  obtain ⟨holdout, rng, _, h⟩ := after_evaluate tc l
  rw [h]
  exact .spared ⟨rfl, rfl, rfl, rfl, rfl, rfl, rfl⟩

theorem follows_evaluateIfDue (tc : Toolchain σ) :
    Follows (evaluateIfDue tc : Training σ Q Unit) fun _ => [] := by
  refine follows_trainer fun l => ?_
  split
  · refine (follows_evaluate tc).before (fun evaluation => ?_) l
    exact follows_modifyTrainer fun _ => ⟨rfl, rfl, rfl, rfl, rfl, rfl, rfl⟩
  · exact .refl _

theorem follows_finishEpisode (tc : Toolchain σ) :
    Follows (finishEpisode tc : Training σ Q Unit) finishEpisodeSteps := by
  rw [finishEpisode_eq]
  refine Follows.then (follows_modifyTrainer fun _ => ⟨rfl, rfl, rfl, rfl, rfl, rfl, rfl⟩) fun _ =>
    follows_trainer fun l => ?_
  split
  · exact follows_learn.before (fun _ => follows_evaluateIfDue tc) l
  · exact follows_evaluateIfDue tc l

theorem follows_rolloutNext (tc : Toolchain σ) (role : Role) (i : Nat) :
    Follows (rolloutNext tc role i : Training σ Q Rollout) fun _ => [] :=
  fun l => .of_rolled (rolls_rolloutNext tc role i l)

theorem follows_runEpisode (tc : Toolchain σ) :
    Follows (runEpisode tc : Training σ Q Nat) (runEpisodeSteps tc) := by
  rw [runEpisode_eq]
  refine follows_pick.then fun i => (follows_rolloutNext tc .trained i).then fun r => ?_
  refine Follows.then
    (follows_modifyTrainer fun _ => ⟨rfl, rfl, rfl, rfl, rfl, rfl, rfl⟩) fun _ => ?_
  exact (follows_finishEpisode tc).before fun _ => follows_pure _

theorem follows_finishJobs (tc : Toolchain σ) (results : List (Except TrainingError Unit)) :
    Follows (finishJobs tc results : Training σ Q Unit) (finishJobsSteps tc results) := by
  induction results with
  | nil => exact follows_pure ()
  | cons result rest ih =>
    cases result with
    | error e => exact follows_throw e
    | ok _ => exact (follows_finishEpisode tc).bind fun _ => ih

theorem follows_runRoundBy (tc : Toolchain σ) {crew : Crew σ Q} (hc : Orderly crew)
    (workers : Nat) :
    Follows (runRoundBy tc crew workers) (runRoundSteps tc crew workers) := by
  intro l
  have hfirst := follows_pickSome workers l
  unfold runRoundBy runRoundSteps notedAfter
  cases hpick : (ofTrainer (Trainer.pickSome workers) : Training σ Q (List (Nat × UInt64))) l with
  | error e l₁ =>
    rw [after_of_error hpick] at hfirst
    rwa [after_bind_of_error hpick]
  | ok jobs l₁ =>
    rw [after_of_ok hpick] at hfirst
    rw [after_bind_of_ok hpick]
    obtain ⟨_, _, results, l₂, hcrew, _, hmustered⟩ := hc.of_pickSome hpick
    simp only [hcrew]
    rw [after_bind_of_ok hcrew]
    exact hfirst.trans ((Course.of_mustered hmustered).trans (follows_finishJobs tc results l₂))

theorem follows_trainForBy (tc : Toolchain σ) {crew : Crew σ Q} (hc : Orderly crew) (turns : Nat) :
    Follows (trainForBy tc crew turns) (trainForSteps tc crew turns) := by
  induction turns with
  | zero => exact follows_pure ()
  | succ turns ih =>
    unfold trainForBy
    refine follows_trainer fun l => ?_
    unfold trainForSteps
    split
    · dsimp only
      split
      · exact (follows_runRoundBy tc hc _).bind (fun _ => ih) l
      · exact (follows_runEpisode tc).bind (fun _ => ih) l
    · exact .refl _

/-- Each act is a course with the gradient steps that are listed for it, if it is no copying. -/
theorem follows_run {act : Act σ Q} (hc : act.IsOrderly) (hs : act ≠ .syncing) :
    Follows act.run act.steps := by
  cases act with
  | episode tc => exact (follows_runEpisode tc).before fun _ => follows_pure _
  | training tc crew =>
    have htrain : Follows (trainBy tc crew) (trainSteps tc crew) :=
      follows_trainer fun l => (follows_trainForBy tc hc _).before
        (fun _ => follows_trainer fun _ => .refl _) l
    exact htrain.before fun _ => follows_pure _
  | learning => exact follows_learn.before fun _ => follows_pure _
  | evaluation tc => exact (follows_evaluate tc).before fun _ => follows_pure _
  | syncing => exact absurd rfl hs

end Course

/-! A trainer for two programs and one held out, which does all it is to do in one round. -/

def schooling : TrainingSettings where
  maxEpisodes := 2
  maxSteps := 1
  bufferCapacity := 8
  batchSize := 1
  syncInterval := 2
  evalInterval := 2
  rolloutWorkers := 2

def schoolWorld : World Calls :=
  { pairedWorld with
    disk := ⟨(["three.ll"], .file "; cost 8.0\n".toUTF8) :: (["three", "build"], .directory) ::
      pairedWorld.disk.nodes, []⟩ }

def school? : Option (Lab Calls ConstantScores) :=
  (Trainer.withSplit schooling Program.soloCatalog [paired "one", paired "two"] [paired "three"]
    constant).toOption.map fun t => ⟨schoolWorld, t⟩

theorem of_school? {l : Lab Calls ConstantScores} (h : school? = some l) :
    Trainer.Built schooling Program.soloCatalog [paired "one", paired "two", paired "three"]
      constant l.trainer := by
  unfold school? at h
  obtain ⟨t, ht, rfl⟩ := Option.map_eq_some_iff.1 h
  cases hmade : Trainer.withSplit schooling Program.soloCatalog [paired "one", paired "two"]
      [paired "three"] constant with
  | error e =>
    rw [hmade] at ht
    cases ht
  | ok t' =>
    rw [hmade] at ht
    cases ht
    exact .split rfl hmade

/-- Training, a copy on request, and one more gradient step. -/
def schoolActs (w : World Calls) : List (World Calls × Act Calls Q) :=
  [(w, .training Program.steady (runJobs Program.steady)), (w, .syncing), (w, .learning)]

theorem orderly_schoolActs (w : World Calls) :
    ∀ act ∈ (schoolActs w : List (World Calls × Act Calls Q)), act.2.IsOrderly := by
  intro act hact
  rcases List.mem_cons.1 hact with rfl | hact
  · exact orderly_runJobs _
  · rcases List.mem_cons.1 hact with rfl | hact
    · trivial
    · rw [List.mem_singleton.1 hact]
      trivial

/-- Whether training comes to its end, with two gradient steps and an evaluation. -/
def graduates (l : Lab Calls ConstantScores) : Bool :=
  match train Program.steady l with
  | .ok report _ => report.gradientSteps = 2 ∧ report.evaluations.length = 1
  | .error _ _ => false

theorem school?_graduates : school?.any graduates = true := by decide +kernel

theorem exists_graduating : ∃ (l l' : Lab Calls ConstantScores) (report : TrainingReport),
    Trainer.Built schooling Program.soloCatalog [paired "one", paired "two", paired "three"]
      constant l.trainer ∧
    trainBy Program.steady (runJobs Program.steady) l = .ok report l' ∧
    report.gradientSteps = 2 ∧ report.evaluations.length = 1 := by
  obtain ⟨l, hmade, hgraduates⟩ := (Option.any_eq_true ..).1 school?_graduates
  unfold graduates at hgraduates
  split at hgraduates
  · rename_i report l' htrain
    obtain ⟨hsteps, hevaluations⟩ := of_decide_eq_true hgraduates
    exact ⟨l, l', report, of_school? hmade, by rw [trainBy_runJobs]; exact htrain, hsteps,
      hevaluations⟩
  · cases hgraduates

end Training

end PassTuner
