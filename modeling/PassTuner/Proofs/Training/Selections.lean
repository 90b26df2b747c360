import PassTuner.Proofs.Number.Doubles
import PassTuner.Proofs.Training.Acts

/-!
# Counting selections

The selections of training rollouts are counted: turn by turn in a rollout, in the log of a round
whose workers take turns, and act by act for a trainer at work. Each of them takes the schedule one
step down, and nothing else does; an evaluation makes selections too, but puts the schedule back.
Main statement: `schedule_counts_selections`.
-/

namespace PassTuner

variable {σ Q α β : Type}

/-! ## Steps of the schedule -/

namespace Exploration

/-- Epsilon is a number above its floor, and no selection can raise it. -/
structure Sound (e : Exploration) : Prop where
  floor : 0 ≤ e.floor
  epsilon : e.floor ≤ e.epsilon
  decay : 0 ≤ e.decay

variable {e : Exploration}

theorem Sound.decayOnce (h : e.Sound) : e.decayOnce.Sound ∧ e.decayOnce.epsilon ≤ e.epsilon := by
  obtain ⟨hfloor, hepsilon, _⟩ := Doubles.le_iff_rank.1 h.epsilon
  by_cases habove : e.floor < e.epsilon
  · by_cases hlow : e.epsilon - e.decay < e.floor ∨ (e.epsilon - e.decay).isNaN = true
    · have heq : e.decayOnce = { e with epsilon := e.floor } := by
        simp only [Exploration.decayOnce, if_pos habove, Bool.or_eq_true, decide_eq_true_eq,
          if_pos hlow]
      rw [heq]
      exact ⟨⟨h.floor, Doubles.le_refl hfloor, h.decay⟩, h.epsilon⟩
    · have heq : e.decayOnce = { e with epsilon := e.epsilon - e.decay } := by
        simp only [Exploration.decayOnce, if_pos habove, Bool.or_eq_true, decide_eq_true_eq,
          if_neg hlow]
      obtain ⟨hfar, hnumber⟩ := not_or.1 hlow
      rw [Bool.not_eq_true] at hnumber
      have hpos : 0 < e.epsilon := Doubles.lt_of_le_of_lt h.floor habove
      rw [heq]
      exact ⟨⟨h.floor, Doubles.le_of_not_lt hnumber hfloor hfar, h.decay⟩,
        Doubles.sub_le_self hpos h.decay hnumber⟩
  · rw [decayOnce_of_floor habove]
    exact ⟨h, Doubles.le_refl hepsilon⟩

theorem Sound.iterate (h : e.Sound) (n : Nat) :
    (Exploration.decayOnce^[n] e).Sound ∧ (Exploration.decayOnce^[n] e).epsilon ≤ e.epsilon := by
  induction n with
  | zero => exact ⟨h, Doubles.le_refl (Doubles.le_iff_rank.1 h.epsilon).2.1⟩
  | succ n ih =>
    rw [Function.iterate_succ_apply']
    exact ⟨ih.1.decayOnce.1, Doubles.le_trans ih.1.decayOnce.2 ih.2⟩

end Exploration

/-! ## Selections of a rollout -/

namespace Walk

variable [Approximator Q]

/-- How many of so many turns of a rollout are selections. -/
def selectionsIn (plan : Plan σ Q) : Nat → Phase × Trail σ → Nat
  | 0, _ => 0
  | turns + 1, x =>
    (if (turn plan x).1.isActing then 1 else 0) + selectionsIn plan turns (turn plan x)

/-- The selections that a rollout still makes. -/
def selections (plan : Plan σ Q) (x : Phase × Trail σ) : Nat :=
  selectionsIn plan (x.1.left plan.maxSteps) x

variable {plan : Plan σ Q} {x : Phase × Trail σ}

omit [Approximator Q] in
theorem gone_of_left {maxSteps : Nat} {phase : Phase} (h : phase.left maxSteps = 0) :
    phase.result?.isSome := by
  cases phase with
  | gone result => rfl
  | _ => simp [Phase.left] at h

theorem selectionsIn_of_gone (h : x.1.result?.isSome) (turns : Nat) :
    selectionsIn plan turns x = 0 := by
  have hacting : x.1.isActing = false := by
    cases hphase : x.1 with
    | acting left action e =>
      rw [hphase] at h
      cases h
    | _ => rfl
  induction turns with
  | zero => rfl
  | succ turns ih => simp [selectionsIn, turn_of_gone h, hacting, ih]

/-- Turns beyond the last one make no difference. -/
theorem selectionsIn_eq {m n : Nat} (hm : x.1.left plan.maxSteps ≤ m)
    (hn : x.1.left plan.maxSteps ≤ n) : selectionsIn plan m x = selectionsIn plan n x := by
  induction m generalizing x n with
  | zero => rw [selectionsIn, selectionsIn_of_gone (gone_of_left (Nat.le_zero.1 hm))]
  | succ m ih =>
    cases hr : x.1.result? with
    | some result =>
      have hgone : x.1.result?.isSome := by simp [hr]
      rw [selectionsIn_of_gone hgone, selectionsIn_of_gone hgone]
    | none =>
      have hless : (turn plan x).1.left plan.maxSteps < x.1.left plan.maxSteps := left_turn hr
      cases n with
      | zero => omega
      | succ n => rw [selectionsIn, selectionsIn, ih (n := n) (by omega) (by omega)]

/-- A rollout takes the schedule one step down for each of its selections. -/
theorem schedule_outcome_eq (plan : Plan σ Q) {x : Phase × Trail σ} {turns : Nat}
    (h : x.1.left plan.maxSteps ≤ turns) :
    (outcome plan x).2.explorer.schedule =
      Exploration.decayOnce^[selectionsIn plan turns x] x.2.explorer.schedule := by
  induction turns generalizing x with
  | zero =>
    rw [outcome_of_gone (gone_of_left (Nat.le_zero.1 h)), selectionsIn, Function.iterate_zero_apply]
  | succ turns ih =>
    cases hr : x.1.result? with
    | some result =>
      have hgone : x.1.result?.isSome := by simp [hr]
      rw [outcome_of_gone hgone, selectionsIn_of_gone hgone, Function.iterate_zero_apply]
    | none =>
      have hless : (turn plan x).1.left plan.maxSteps < x.1.left plan.maxSteps := left_turn hr
      rw [← outcome_turn, ih (by omega), selectionsIn]
      rcases schedule_turn plan hr with ⟨hacting, hs⟩ | ⟨hacting, hs⟩
      · rw [hs, if_pos hacting, Nat.add_comm, Function.iterate_succ_apply]
      · rw [hs, hacting, if_neg Bool.false_ne_true, Nat.zero_add]

end Walk

namespace Training

/-! ## Selections in the log of a round -/

namespace Round

/-- Programs after those of workers were put back where they belong. -/
def putBack (programs : List Program) (workers : List (Worker σ)) : List Program :=
  workers.foldl (fun programs w => programs.set w.position w.bench.program) programs

@[simp] theorem length_putBack (programs : List Program) (workers : List (Worker σ)) :
    (putBack programs workers).length = programs.length := by
  induction workers generalizing programs with
  | nil => rfl
  | cons w workers ih => exact (ih _).trans List.length_set
variable [Approximator Q] {plan : Plan σ Q} {r r' : Round σ} {w : Worker σ} {i : Nat}
  {phase : Walk.Phase}

/-- How often something was selected so far. -/
def selections (r : Round σ) : Nat := r.log.countP Event.isSelection

omit [Approximator Q] in
theorem selections_conclude (r : Round σ) (i : Nat) (w : Worker σ)
    (result : Except TrainingError Episode) : (r.conclude i w result).selections =
      r.selections := by
  unfold selections conclude pushes
  cases result <;> simp [List.countP_append, Event.isSelection]

omit [Approximator Q] in
theorem selections_proceed (r : Round σ) (i : Nat) (w : Worker σ) (x : Walk.Phase × Trail σ) :
    (r.proceed i w x).selections = r.selections + if x.1.isActing then 1 else 0 := by
  unfold selections proceed
  cases x.1.isActing <;> simp [List.countP_append, Event.isSelection]

/-- A worker that takes turns alone adds the selections of its rollout. -/
theorem selections_run_alone (hw : r.workers[i]? = some w)
    (ht : w.task = .rolling phase) (k : Nat) :
    (r.run plan (List.replicate k i)).selections =
      r.selections + Walk.selectionsIn plan k (phase, w.trail r.schedule) := by
  induction k generalizing r w phase with
  | zero => rfl
  | succ k ih =>
    have hi : i < r.workers.length := (List.getElem?_eq_some_iff.1 hw).1
    rw [List.replicate_succ, run, List.foldl_cons]
    cases hr : phase.result? with
    | some result =>
      have hover : (r.conclude i w result).workers[i]? = some (w.conclude result) :=
        List.getElem?_set_self hi
      have hrest : (r.conclude i w result).run plan (List.replicate k i) = _ :=
        run_of_ended hover rfl k
      rw [turn_of_gone hw ht hr, ← run, hrest, selections_conclude,
        Walk.selectionsIn_of_gone (by simp [hr]), Nat.add_zero]
    | none =>
      let x := Walk.turn plan (phase, w.trail r.schedule)
      have hnext : (r.proceed i w x).workers[i]? = some (w.at x) := List.getElem?_set_self hi
      rw [turn_of_rolling hw ht hr, ← run, ih hnext rfl, selections_proceed, Nat.add_assoc]
      rfl

/-- The workers behind the first one add the selections that they add without it. -/
theorem selections_run_behind (plan : Plan σ Q) (hs : r.schedule = r'.schedule)
    (hb : r.buffer = r'.buffer) (hw : r.workers = w :: r'.workers) (turns : List Nat) :
    (r.run plan (turns.map (· + 1))).selections + r'.selections =
      r.selections + (r'.run plan turns).selections := by
  induction turns generalizing r r' with
  | nil => rfl
  | cons i turns ih =>
    have hsame : r.workers[i + 1]? = r'.workers[i]? := by rw [hw, List.getElem?_cons_succ]
    obtain ⟨hs₁, hb₁, hw₁⟩ := run_behind plan hs hb hw [i]
    have hone : (r.turn plan (i + 1)).selections + r'.selections =
        r.selections + (r'.turn plan i).selections := by
      simp only [turn, hsame]
      cases r'.workers[i]? with
      | none => rfl
      | some w' =>
        dsimp only
        cases w'.task with
        | ended result => rfl
        | rolling phase =>
          dsimp only
          cases phase.result? with
          | some result => rw [selections_conclude, selections_conclude]
          | none =>
            rw [selections_proceed, selections_proceed, hs]
            omega
    have hrest : ((r.turn plan (i + 1)).run plan (turns.map (· + 1))).selections +
        (r'.turn plan i).selections = (r.turn plan (i + 1)).selections +
          ((r'.turn plan i).run plan turns).selections := ih hs₁ hb₁ hw₁
    have hgoal : ((r.turn plan (i + 1)).run plan (turns.map (· + 1))).selections + r'.selections =
        r.selections + ((r'.turn plan i).run plan turns).selections := by omega
    exact hgoal

end Round

/-! ## Crews that are counted -/

variable [Approximator Q]

/-- The crew does the jobs of a round as workers do that take turns, each until its rollout is taken
in, and the tally is the number of their selections. -/
def Tallies (tc : Toolchain σ) (crew : Crew σ Q) (tally : List (Nat × UInt64) → Lab σ Q → Nat) :
    Prop :=
  ∀ jobs l, (jobs.map (·.1)).Nodup → (∀ job ∈ jobs, job.1 < l.trainer.programs.length) →
    ∃ (worlds : Nat → World σ) (turns : List Nat) (results : List (Except TrainingError Episode))
      (l' : Lab σ Q), crew jobs l = .ok (results.map (·.map fun _ => ())) l' ∧
      let r := (Round.start worlds l.trainer jobs).run (planOf tc l.trainer) turns
      r.workers.map (·.task) = results.map .ended ∧
        (∃ programs, programs.length = l.trainer.programs.length ∧
          l'.trainer = { l.trainer with programs, schedule := r.schedule, buffer := r.buffer }) ∧
        tally jobs l = r.selections

/-- A crew with the tally of its selections. -/
structure Band (tc : Toolchain σ) (Q : Type) [Approximator Q] where
  crew : Crew σ Q
  tally : List (Nat × UInt64) → Lab σ Q → Nat
  tallies : Tallies tc crew tally

/-- The selections of a rollout of one of the programs to train on. -/
def rolloutSelections (tc : Toolchain σ) (i : Nat) (rng : Rng) (l : Lab σ Q) : Nat :=
  match l.trainer.programs[i]? with
  | none => 0
  | some p => Walk.selections (planOf tc l.trainer)
      (.arriving, ⟨⟨l.world, p⟩, ⟨l.trainer.schedule, rng⟩⟩)

/-- The selections of jobs that are done one after another. -/
def jobsSelections (tc : Toolchain σ) : List (Nat × UInt64) → Lab σ Q → Nat
  | [], _ => 0
  | (i, seed) :: rest, l =>
    rolloutSelections tc i (.ofSeed seed) l + jobsSelections tc rest (after (runJob tc i seed) l)

/-- A job is all turns of a first worker, with the selections of its rollout. -/
theorem runJob_is_run (tc : Toolchain σ) {l : Lab σ Q} {i : Nat} {p : Program}
    (hp : l.trainer.programs[i]? = some p) (seed : UInt64) :
    ∃ (result : Except TrainingError Episode) (l₁ : Lab σ Q) (p' : Program),
      runJob tc i seed l = .ok (result.map fun _ => ()) l₁ ∧
      l₁.trainer = { l.trainer with
        programs := l.trainer.programs.set i p'
        schedule := l₁.trainer.schedule
        buffer := l₁.trainer.buffer } ∧
      ∀ {r : Round σ} {others : List (Worker σ)}, r.schedule = l.trainer.schedule →
        r.buffer = l.trainer.buffer → r.workers = Worker.fresh i ⟨l.world, p⟩ seed :: others →
        ∃ (turns : List Nat) (w : Worker σ), w.task = .ended result ∧
          w.position = i ∧ w.bench.program = p' ∧
          (r.run (planOf tc l.trainer) turns).schedule = l₁.trainer.schedule ∧
          (r.run (planOf tc l.trainer) turns).buffer = l₁.trainer.buffer ∧
          (r.run (planOf tc l.trainer) turns).workers = w :: others ∧
          (r.run (planOf tc l.trainer) turns).selections =
            r.selections + rolloutSelections tc i (.ofSeed seed) l := by
  obtain ⟨result, x, hx, hgone, hjob⟩ := runJob_outcome tc hp seed
  refine ⟨result, _, _, hjob, rfl, fun {r others} hs hb hw => ?_⟩
  have hfirst : r.workers[0]? = some (Worker.fresh i ⟨l.world, p⟩ seed) := by rw [hw]; rfl
  obtain ⟨result', hgone', hschedule, hbuffer, hworkers⟩ :=
    Round.run_alone (planOf tc l.trainer) hfirst rfl (Nat.lt_succ_self _)
  have hsame : Walk.outcome (planOf tc l.trainer)
      (.arriving, (Worker.fresh i ⟨l.world, p⟩ seed).trail r.schedule) = x := by
    rw [hs]
    exact hx.symm
  rw [hsame] at hgone' hschedule hbuffer hworkers
  obtain rfl : result = result' := Walk.Phase.gone.inj (hgone.symm.trans hgone')
  rw [hb] at hbuffer
  rw [hw, List.set_cons_zero] at hworkers
  refine ⟨_, _, rfl, rfl, rfl, hschedule, hbuffer, hworkers, ?_⟩
  rw [Round.selections_run_alone hfirst rfl, hs]
  simp only [rolloutSelections, hp]
  exact congrArg (r.selections + ·) (Walk.selectionsIn_eq (Nat.le_succ _) le_rfl)

/-- Doing the jobs one after another is letting one worker after another take all of its turns, each
in the world that its predecessor left, and putting their programs back. -/
theorem runJobs_is_round (tc : Toolchain σ) (jobs : List (Nat × UInt64)) (l : Lab σ Q)
    (distinct : (jobs.map (·.1)).Nodup) (inside : ∀ job ∈ jobs, job.1 < l.trainer.programs.length) :
    ∃ (worlds : Nat → World σ) (turns : List Nat) (results : List (Except TrainingError Episode))
      (l' : Lab σ Q), runJobs tc jobs l = .ok (results.map (·.map fun _ => ())) l' ∧
      let r := (Round.start worlds l.trainer jobs).run (planOf tc l.trainer) turns
      r.workers.map (·.task) = results.map .ended ∧
        l'.trainer = { l.trainer with
          programs := Round.putBack l.trainer.programs r.workers
          schedule := r.schedule
          buffer := r.buffer } ∧
        jobsSelections tc jobs l = r.selections := by
  induction jobs generalizing l with
  | nil => exact ⟨fun _ => l.world, [], [], l, rfl, rfl, rfl, rfl⟩
  | cons job rest ih =>
    obtain ⟨i, seed⟩ := job
    obtain ⟨fresh, hrest⟩ := List.nodup_cons.1 distinct
    have hp := List.getElem?_eq_getElem (inside _ List.mem_cons_self)
    obtain ⟨result, l₁, p', hjob, hother, hfirst⟩ := runJob_is_run tc hp seed
    have hprograms : l₁.trainer.programs = l.trainer.programs.set i p' := by rw [hother]
    have hplan : planOf tc l₁.trainer = planOf tc l.trainer := by rw [hother]; rfl
    obtain ⟨worlds, turns, results, l', hjobs, htasks, htrainer, htally⟩ :=
      ih l₁ hrest fun job hjob => by
        rw [hprograms, List.length_set]
        exact inside job (List.mem_cons_of_mem _ hjob)
    rw [hplan] at htasks htrainer htally
    obtain ⟨first, w, hw, hposition, hprogram, hs, hb, hothers, hcount⟩ :=
      hfirst rfl rfl (workers_start hp l₁ fresh
        (fun j hj => by rw [hprograms]; exact List.getElem?_set_ne (Ne.symm hj)) worlds)
    have hs : _ = (Round.start worlds l₁.trainer rest).schedule := hs
    obtain ⟨hs', hb', hw'⟩ := Round.run_behind (planOf tc l.trainer) hs hb hothers turns
    have hcount' := Round.selections_run_behind (planOf tc l.trainer) hs hb hothers turns
    rw [hcount] at hcount'
    refine ⟨fun j => if j = i then l.world else worlds j, first ++ turns.map (· + 1),
      result :: results, l', ?_, ?_⟩
    · unfold runJobs
      rw [EStateM.bind_of_ok hjob, EStateM.bind_of_ok hjobs]
      rfl
    · rw [Round.run, List.foldl_append]
      refine ⟨?_, ?_, ?_⟩
      · exact (congrArg (List.map _) hw').trans (by rw [List.map_cons, hw, htasks]; rfl)
      · have hback : Round.putBack l.trainer.programs
            (w :: ((Round.start worlds l₁.trainer rest).run (planOf tc l.trainer) turns).workers) =
            Round.putBack l₁.trainer.programs
              ((Round.start worlds l₁.trainer rest).run (planOf tc l.trainer) turns).workers := by
          rw [Round.putBack, List.foldl_cons, hposition, hprogram, ← hprograms]
          rfl
        refine htrainer.trans ?_
        rw [← hs', ← hb', ← hback, ← hw', hother]
        rfl
      · rw [jobsSelections, after_of_ok hjob, htally]
        exact (Nat.zero_add _ ▸ hcount').symm

theorem tallies_runJobs (tc : Toolchain σ) :
    Tallies tc (runJobs tc : Crew σ Q) (jobsSelections tc) := by
  intro jobs l distinct inside
  obtain ⟨worlds, turns, results, l', hjobs, htasks, htrainer, htally⟩ :=
    runJobs_is_round tc jobs l distinct inside
  exact ⟨worlds, turns, results, l', hjobs, htasks, ⟨_, Round.length_putBack _ _, htrainer⟩, htally⟩

/-- A crew whose selections are counted is an orderly one. -/
theorem Tallies.orderly {tc : Toolchain σ} {crew : Crew σ Q}
    {tally : List (Nat × UInt64) → Lab σ Q → Nat} (h : Tallies tc crew tally) : Orderly crew := by
  intro jobs l distinct inside
  obtain ⟨worlds, turns, results, l', hcrew, htasks, ⟨programs, hlength, htrainer⟩, _⟩ :=
    h jobs l distinct inside
  refine ⟨_, l', hcrew, ?_, ?_⟩
  · have hworkers := congrArg List.length (Round.start_spec worlds jobs inside).1
    have hanswers := congrArg List.length htasks
    simp only [List.length_map, length_run] at hworkers hanswers ⊢
    exact hanswers.symm.trans hworkers
  · rw [htrainer]
    exact mustered_run _ worlds _ jobs turns hlength

/-! ## Deeds -/

/-- The selections of what goes on from where a computation ended, if it ended in an answer. -/
def countAfter (x : Training σ Q α) (next : α → Lab σ Q → Nat) (l : Lab σ Q) : Nat :=
  match x l with
  | .ok a l => next a l
  | .error _ _ => 0

def runEpisodeSelections (tc : Toolchain σ) : Lab σ Q → Nat :=
  countAfter (ofTrainer Trainer.pick) fun i l => rolloutSelections tc i l.trainer.rng l

def runRoundSelections {tc : Toolchain σ} (band : Band tc Q) (workers : Nat) : Lab σ Q → Nat :=
  countAfter (ofTrainer (Trainer.pickSome workers)) band.tally

def trainForSelections {tc : Toolchain σ} (band : Band tc Q) : Nat → Lab σ Q → Nat
  | 0, _ => 0
  | turns + 1, l =>
    if l.trainer.episodes < l.trainer.settings.maxEpisodes then
      if 1 < roundSize l.trainer then
        runRoundSelections band (roundSize l.trainer) l +
          countAfter (runRoundBy tc band.crew (roundSize l.trainer))
            (fun _ => trainForSelections band turns) l
      else
        runEpisodeSelections tc l +
          countAfter (runEpisode tc) (fun _ => trainForSelections band turns) l
    else 0

/-- What a trainer can be asked to do, with crews whose selections are counted. -/
inductive Deed (σ Q : Type) [Approximator Q] where
  | episode (tc : Toolchain σ)
  | training (tc : Toolchain σ) (band : Band tc Q)
  | learning
  | evaluation (tc : Toolchain σ)
  | syncing

namespace Deed

def act : Deed σ Q → Act σ Q
  | .episode tc => .episode tc
  | .training tc band => .training tc band.crew
  | .learning => .learning
  | .evaluation tc => .evaluation tc
  | .syncing => .syncing

/-- The selections of the training rollouts of a deed; those of an evaluation are none of them. -/
def selections : Deed σ Q → Lab σ Q → Nat
  | .episode tc, l => runEpisodeSelections tc l
  | .training _ band, l => trainForSelections band l.trainer.settings.maxEpisodes l
  | .learning, _ => 0
  | .evaluation _, _ => 0
  | .syncing, _ => 0

end Deed

/-- What is done in turn, each deed in a world as it is by then. -/
def actsOf (deeds : List (World σ × Deed σ Q)) : List (World σ × Act σ Q) :=
  deeds.map fun (w, deed) => (w, deed.act)

/-- The selections of the training rollouts of deeds in turn. -/
def selections (t : Trainer Q) : List (World σ × Deed σ Q) → Nat
  | [] => 0
  | (w, deed) :: rest =>
    deed.selections ⟨w, t⟩ + selections (after deed.act.run ⟨w, t⟩).trainer rest

/-! ## Work whose selections are counted -/

/-- Work takes the schedule one step down for each of its selections, however it ends. -/
def Counts (x : Training σ Q α) (count : Lab σ Q → Nat) : Prop :=
  ∀ l, (after x l).trainer.schedule = Exploration.decayOnce^[count l] l.trainer.schedule

section Counts

variable {tc : Toolchain σ} {x : Training σ Q α} {count : Lab σ Q → Nat} {l l' : Lab σ Q}

omit [Approximator Q] in
theorem countAfter_of_ok {next : α → Lab σ Q → Nat} {a : α} (hx : x l = .ok a l') :
    countAfter x next l = next a l' := by
  simp only [countAfter, hx]

omit [Approximator Q] in
theorem countAfter_of_error {next : α → Lab σ Q → Nat}
    {e : TrainingError} (hx : x l = .error e l') :
    countAfter x next l = 0 := by
  simp only [countAfter, hx]

omit [Approximator Q] in
theorem counts_pure (a : α) : Counts (pure a : Training σ Q α) fun _ => 0 := fun _ => rfl

omit [Approximator Q] in
theorem counts_throw (e : TrainingError) : Counts (throw e : Training σ Q α) fun _ => 0 :=
  fun _ => rfl

omit [Approximator Q] in
theorem Counts.bind {f : α → Training σ Q β} {next : α → Lab σ Q → Nat} (first : Counts x count)
    (second : ∀ a, Counts (f a) (next a)) :
    Counts (x >>= f) fun l => count l + countAfter x next l := by
  intro l
  have hfirst := first l
  cases hx : x l with
  | error e l₁ =>
    rw [after_of_error hx] at hfirst
    dsimp only
    rw [after_bind_of_error hx, countAfter_of_error hx, Nat.add_zero, hfirst]
  | ok a l₁ =>
    rw [after_of_ok hx] at hfirst
    dsimp only
    rw [after_bind_of_ok hx, countAfter_of_ok hx, second a l₁, hfirst, Nat.add_comm,
      Function.iterate_add_apply]

omit [Approximator Q] in
/-- What makes no selections may come first. -/
theorem Counts.then {f : α → Training σ Q β} {next : α → Lab σ Q → Nat}
    (first : Counts x fun _ => 0) (second : ∀ a, Counts (f a) (next a)) :
    Counts (x >>= f) (countAfter x next) := by
  intro l
  simpa only [Nat.zero_add] using first.bind second l

omit [Approximator Q] in
/-- What makes no selections may come last. -/
theorem Counts.before {f : α → Training σ Q β} (first : Counts x count)
    (second : ∀ a, Counts (f a) fun _ => 0) : Counts (x >>= f) count := by
  intro l
  have hnone : countAfter x (fun _ _ => 0) l = 0 := by
    unfold countAfter
    cases x l <;> rfl
  simpa only [hnone, Nat.add_zero] using first.bind second l

omit [Approximator Q] in
theorem counts_trainer {f : Trainer Q → Training σ Q β}
    (h : ∀ l, (after (f l.trainer) l).trainer.schedule =
      Exploration.decayOnce^[count l] l.trainer.schedule) :
    Counts (trainer >>= f) count := h

omit [Approximator Q] in
theorem counts_modifyTrainer {f : Trainer Q → Trainer Q} (h : ∀ t, (f t).schedule = t.schedule) :
    Counts (modifyTrainer f : Training σ Q Unit) fun _ => 0 := fun l => h l.trainer

omit [Approximator Q] in
theorem counts_ofTrainer {f : Trainer Q → Except TrainingError (α × Trainer Q)}
    (h : ∀ t a t', f t = .ok (a, t') → t'.schedule = t.schedule) :
    Counts (ofTrainer f : Training σ Q α) fun _ => 0 := by
  intro l
  unfold after ofTrainer
  cases hf : f l.trainer with
  | error e => rfl
  | ok made => exact h _ _ _ hf

omit [Approximator Q] in
theorem counts_pick : Counts (ofTrainer Trainer.pick : Training σ Q Nat) fun _ => 0 := by
  refine counts_ofTrainer fun t i t' h => ?_
  obtain ⟨rng, rfl⟩ := Trainer.of_pick h
  rfl

omit [Approximator Q] in
theorem counts_pickSome (workers : Nat) : Counts
    (ofTrainer (Trainer.pickSome workers) : Training σ Q (List (Nat × UInt64))) fun _ => 0 := by
  refine counts_ofTrainer fun t i t' h => ?_
  obtain ⟨rng, rfl⟩ := Trainer.of_pickSome h
  rfl

theorem counts_learn : Counts (learn : Training σ Q (Option Float32)) fun _ => 0 := by
  refine counts_ofTrainer fun t i t' h => ?_
  cases Trainer.learns_of_ok h <;> rfl

theorem counts_evaluate (tc : Toolchain σ) :
    Counts (evaluate tc : Training σ Q Evaluation) fun _ => 0 := by
  intro l
  obtain ⟨holdout, rng, _, h⟩ := after_evaluate tc l
  rw [h]
  rfl

theorem counts_finishEpisode (tc : Toolchain σ) :
    Counts (finishEpisode tc : Training σ Q Unit) fun _ => 0 := by
  have hdue : Counts (evaluateIfDue tc : Training σ Q Unit) fun _ => 0 :=
    counts_trainer fun l => by
      split
      · refine (counts_evaluate tc).before (fun evaluation => ?_) l
        exact counts_modifyTrainer fun _ => rfl
      · rfl
  rw [finishEpisode_eq]
  refine Counts.before (counts_modifyTrainer fun _ => rfl) fun _ => counts_trainer fun l => ?_
  split
  · exact counts_learn.before (fun _ => hdue) l
  · exact hdue l

/-- A rollout of a program to train on takes the schedule down with its selections. -/
theorem counts_rollout (tc : Toolchain σ) (i : Nat) (rng : Rng) :
    Counts (rollout tc .trained i rng : Training σ Q (Except TrainingError Rollout × Rng))
      (rolloutSelections tc i rng) := by
  intro l
  unfold after rolloutSelections
  cases hp : l.trainer.programs[i]? with
  | none =>
    have hp : (programsOf l.trainer .trained)[i]? = none := hp
    simp only [rollout, hp]
    rfl
  | some p =>
    have hp : (programsOf l.trainer .trained)[i]? = some p := hp
    have h := Walk.schedule_outcome_eq (planOf tc l.trainer)
      (x := (.arriving, ⟨⟨l.world, p⟩, ⟨l.trainer.schedule, rng⟩⟩)) le_rfl
    rw [Walk.outcome_arriving] at h
    simp only [rollout, hp]
    cases hr : Walk.rollout tc l.trainer.catalog l.trainer.online l.trainer.settings.maxSteps
        ⟨⟨l.world, p⟩, ⟨l.trainer.schedule, rng⟩⟩ with
    | ok r trail =>
      simp only [planOf, hr] at h
      exact h
    | error e trail =>
      simp only [planOf, hr] at h
      exact h

theorem counts_rolloutNext (tc : Toolchain σ) (i : Nat) :
    Counts (rolloutNext tc .trained i : Training σ Q Rollout)
      fun l => rolloutSelections tc i l.trainer.rng l := by
  refine counts_trainer fun l => (counts_rollout tc i l.trainer.rng).before (fun rolled => ?_) l
  refine Counts.before (counts_modifyTrainer fun _ => rfl) fun _ => ?_
  cases rolled.1 with
  | ok r => exact counts_pure r
  | error e => exact counts_throw e

theorem counts_runEpisode (tc : Toolchain σ) :
    Counts (runEpisode tc : Training σ Q Nat) (runEpisodeSelections tc) := by
  rw [runEpisode_eq]
  refine counts_pick.then fun i => (counts_rolloutNext tc i).before fun r => ?_
  exact Counts.before (counts_modifyTrainer fun _ => rfl) fun _ =>
    (counts_finishEpisode tc).before fun _ => counts_pure _

theorem counts_finishJobs (tc : Toolchain σ) (results : List (Except TrainingError Unit)) :
    Counts (finishJobs tc results : Training σ Q Unit) fun _ => 0 := by
  induction results with
  | nil => exact counts_pure ()
  | cons result rest ih =>
    cases result with
    | error e => exact counts_throw e
    | ok _ => exact (counts_finishEpisode tc).before fun _ => ih

/-- In whatever order the workers of a round take turns, each of their selections counts. -/
theorem schedule_run (plan : Plan σ Q) (worlds : Nat → World σ) (t : Trainer Q)
    (jobs : List (Nat × UInt64)) (turns : List Nat) :
    ((Round.start worlds t jobs).run plan turns).schedule =
      Exploration.decayOnce^[((Round.start worlds t jobs).run plan turns).selections] t.schedule :=
  ((Round.logged_start worlds t jobs).run turns).schedule

theorem counts_runRoundBy (band : Band tc Q) (workers : Nat) :
    Counts (runRoundBy tc band.crew workers) (runRoundSelections band workers) := by
  intro l
  have hfirst := counts_pickSome workers l
  unfold runRoundBy runRoundSelections
  cases hpick : (ofTrainer (Trainer.pickSome workers) : Training σ Q (List (Nat × UInt64))) l with
  | error e l₁ =>
    rw [after_of_error hpick] at hfirst
    rw [after_bind_of_error hpick, countAfter_of_error hpick]
    exact hfirst
  | ok jobs l₁ =>
    rw [after_of_ok hpick] at hfirst
    rw [after_bind_of_ok hpick, countAfter_of_ok hpick]
    obtain ⟨_, distinct, inside, _⟩ := jobs_of_pickSome hpick
    obtain ⟨worlds, turns, results, l₂, hcrew, _, ⟨_, _, htrainer⟩, htally⟩ :=
      band.tallies jobs l₁ distinct inside
    rw [after_bind_of_ok hcrew, counts_finishJobs tc _ l₂, htally, htrainer,
      Function.iterate_zero_apply, schedule_run, hfirst, Function.iterate_zero_apply]

theorem counts_trainForBy (band : Band tc Q) (turns : Nat) :
    Counts (trainForBy tc band.crew turns) (trainForSelections band turns) := by
  induction turns with
  | zero => exact counts_pure ()
  | succ turns ih =>
    unfold trainForBy
    refine counts_trainer fun l => ?_
    unfold trainForSelections
    split
    · dsimp only
      split
      · exact (counts_runRoundBy band _).bind (fun _ => ih) l
      · exact (counts_runEpisode tc).bind (fun _ => ih) l
    · rfl

/-- Each deed takes the schedule down with its selections, however it ends. -/
theorem counts_run (deed : Deed σ Q) : Counts deed.act.run deed.selections := by
  cases deed with
  | episode tc => exact (counts_runEpisode tc).before fun _ => counts_pure _
  | training tc band =>
    have htrain : Counts (trainBy tc band.crew)
        fun l => trainForSelections band l.trainer.settings.maxEpisodes l :=
      counts_trainer fun l => (counts_trainForBy band _).before
        (fun _ => counts_trainer fun _ => rfl) l
    exact htrain.before fun _ => counts_pure _
  | learning => exact counts_learn.before fun _ => counts_pure _
  | evaluation tc => exact (counts_evaluate tc).before fun _ => counts_pure _
  | syncing => exact counts_modifyTrainer fun _ => rfl

theorem schedule_conduct (t : Trainer Q) (deeds : List (World σ × Deed σ Q)) :
    (conduct t (actsOf deeds)).schedule =
      Exploration.decayOnce^[selections t deeds] t.schedule := by
  induction deeds generalizing t with
  | nil => rfl
  | cons first rest ih =>
    obtain ⟨w, deed⟩ := first
    have hrest := ih (after deed.act.run ⟨w, t⟩).trainer
    rw [counts_run deed ⟨w, t⟩] at hrest
    rw [selections, Nat.add_comm, Function.iterate_add_apply]
    exact hrest

end Counts

/-- Whatever a trainer was asked for, epsilon went one step down for each selection of a training
rollout and for nothing else. So it is between its floor and where it started, and nothing that the
trainer is asked for next raises it. -/
theorem schedule_counts_selections {settings : TrainingSettings} {catalog : Catalog}
    {programs : List Program} {q : Q} {t₀ : Trainer Q}
    (ht : Trainer.Built settings catalog programs q t₀) (deeds : List (World σ × Deed σ Q)) :
    let t := conduct t₀ (actsOf deeds)
    t.schedule = Exploration.decayOnce^[selections t₀ deeds]
        ⟨settings.epsilon, settings.epsilonFloor, settings.epsilonDecay⟩ ∧
      settings.epsilonFloor ≤ t.schedule.epsilon ∧ t.schedule.epsilon ≤ settings.epsilon ∧
      ∀ (w : World σ) (next : Deed σ Q),
        (after next.act.run ⟨w, t⟩).trainer.schedule.epsilon ≤ t.schedule.epsilon := by
  intro t
  have hvalid := TrainingSettings.valid_of_validate ht.starts.1.valid
  have hsound : Exploration.Sound
      ⟨settings.epsilon, settings.epsilonFloor, settings.epsilonDecay⟩ :=
    ⟨hvalid.epsilonFloor.1, hvalid.epsilonFloor.2, hvalid.epsilonDecay.1⟩
  have hschedule : t.schedule = Exploration.decayOnce^[selections t₀ deeds]
      ⟨settings.epsilon, settings.epsilonFloor, settings.epsilonDecay⟩ := by
    rw [show t.schedule = _ from schedule_conduct t₀ deeds, ht.eq]
  obtain ⟨hkept, htop⟩ := hsound.iterate (selections t₀ deeds)
  rw [← hschedule] at hkept htop
  have hfloor : t.schedule.floor = settings.epsilonFloor := by
    rw [hschedule, Exploration.floor_iterate]
  refine ⟨hschedule, hfloor ▸ hkept.epsilon, htop, fun w next => ?_⟩
  rw [counts_run next ⟨w, t⟩]
  exact (hkept.iterate _).2

/-- A round of two workers and the evaluation after it, and another evaluation on request. -/
def schoolDeeds : List (World Calls × Deed Calls ConstantScores) :=
  [(schoolWorld, .training Program.steady
      ⟨runJobs Program.steady, jobsSelections Program.steady, tallies_runJobs _⟩),
    (schoolWorld, .evaluation Program.steady)]

theorem school?_selects :
    school?.any (fun l => selections l.trainer schoolDeeds = 2) = true := by decide +kernel

theorem schedule_counts_selections_school : ∃ t₀ : Trainer ConstantScores,
    Trainer.Built schooling Program.soloCatalog [paired "one", paired "two", paired "three"]
      constant t₀ ∧
    let t := conduct t₀ (actsOf schoolDeeds)
    t.schedule = (⟨schooling.epsilon, schooling.epsilonFloor, schooling.epsilonDecay⟩ :
        Exploration).decayOnce.decayOnce ∧
      schooling.epsilonFloor ≤ t.schedule.epsilon ∧ t.schedule.epsilon ≤ schooling.epsilon := by
  obtain ⟨l, hmade, hselects⟩ := (Option.any_eq_true ..).1 school?_selects
  obtain ⟨hschedule, hfloor, htop, _⟩ :=
    schedule_counts_selections (of_school? hmade) schoolDeeds
  rw [of_decide_eq_true hselects] at hschedule
  exact ⟨l.trainer, of_school? hmade, hschedule, hfloor, htop⟩

end Training

end PassTuner
