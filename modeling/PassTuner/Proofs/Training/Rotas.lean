import PassTuner.Network.Adam
import PassTuner.Proofs.Training.Selections

/-!
# Workers that take turns

In a round the workers share schedule and buffer, and meet there in any order. A rota says in which,
for each round that a trainer comes to; whoever is not done by then comes to its end, and the
programs are put back. So a rota makes an orderly crew whose selections are counted, and doing the
jobs one after another is the crew of one. What can be asked of a trainer, with rotas for its
rounds, are errands. Main statement: what each errand keeps, errands in turn keep.
-/

namespace PassTuner

variable {σ Q α : Type}

namespace Training

/-! ## The end of a round -/

/-- How the rollout ended, if it was taken in. -/
def Task.result? : Task → Option (Except TrainingError Episode)
  | .rolling _ => none
  | .ended result => some result

/-- The worker has nothing more to do. -/
def Worker.Done (w : Worker σ) : Prop := ∃ result, w.task = .ended result

namespace Round

theorem mem_putBack {programs : List Program} {workers : List (Worker σ)} {p : Program}
    (h : p ∈ putBack programs workers) : p ∈ programs ∨ ∃ w ∈ workers, p = w.bench.program := by
  induction workers generalizing programs with
  | nil => exact .inl h
  | cons w workers ih =>
    rcases ih h with hset | ⟨w', hw', rfl⟩
    · exact (List.mem_or_eq_of_mem_set hset).imp_right fun heq => ⟨w, List.mem_cons_self, heq⟩
    · exact .inr ⟨w', List.mem_cons_of_mem w hw', rfl⟩

/-- How the rollouts that were taken in ended, worker by worker. -/
def answers (r : Round σ) : List (Except TrainingError Episode) :=
  (r.workers.map (·.task)).filterMap Task.result?

theorem answers_of_tasks {r : Round σ} {results : List (Except TrainingError Episode)}
    (h : r.workers.map (·.task) = results.map .ended) : r.answers = results := by
  rw [answers, h, List.filterMap_map]
  exact List.filterMap_some

theorem tasks_of_done {r : Round σ} (h : ∀ w ∈ r.workers, w.Done) :
    r.workers.map (·.task) = r.answers.map .ended := by
  rw [answers, List.map_filterMap, List.filterMap_map, ← List.filterMap_eq_map]
  refine List.filterMap_congr fun w hw => ?_
  obtain ⟨result, hover⟩ := h w hw
  simp only [hover, Task.result?, Option.map_some, Function.comp_apply]

theorem done_of_tasks {r : Round σ} {results : List (Except TrainingError Episode)}
    (h : r.workers.map (·.task) = results.map .ended) : ∀ w ∈ r.workers, w.Done := by
  intro w hw
  have hmem : w.task ∈ r.workers.map (·.task) := List.mem_map_of_mem hw
  rw [h] at hmem
  obtain ⟨result, _, hover⟩ := List.mem_map.1 hmem
  exact ⟨result, hover.symm⟩

theorem mem_answers {r : Round σ} {result : Except TrainingError Episode} (h : result ∈ r.answers) :
    ∃ w ∈ r.workers, w.task = .ended result := by
  obtain ⟨task, htask, hresult⟩ := List.mem_filterMap.1 h
  obtain ⟨w, hw, rfl⟩ := List.mem_map.1 htask
  refine ⟨w, hw, ?_⟩
  cases ht : w.task <;> rw [ht] at hresult <;> cases hresult
  rfl

/-- Pushes bring nothing into the buffer but what is pushed. -/
theorem subperm_foldl_apply (log : List Event) (b : Replay) :
    (log.foldl Event.apply b).entries.Subperm (b.entries ++ log.flatMap Event.transitions) := by
  induction log generalizing b with
  | nil => exact (List.append_nil b.entries).symm ▸ .refl _
  | cons event log ih =>
    have hone : (event.apply b).entries.Subperm (b.entries ++ event.transitions) := by
      cases event with
      | selected i => exact (List.append_nil b.entries).symm ▸ .refl _
      | pushed i e rng => exact Replay.subperm_push b e rng
    rw [List.foldl_cons, List.flatMap_cons, ← List.append_assoc]
    exact (ih (event.apply b)).trans ((List.subperm_append_right _).2 hone)

theorem capacity_foldl_apply (log : List Event) (b : Replay) :
    (log.foldl Event.apply b).capacity = b.capacity := by
  induction log generalizing b with
  | nil => rfl
  | cons event log ih => exact (ih (event.apply b)).trans (event.capacity_apply b)

theorem Logged.subperm_entries {r r₀ : Round σ} (h : Logged r₀ r) :
    r.buffer.entries.Subperm (r₀.buffer.entries ++ r.gathered) := by
  rw [h.buffer]
  exact (subperm_foldl_apply r.log r₀.buffer).trans (h.complete.append_left _).subperm

/-- A worker that starts has its rollout before it, on one of the programs to train on. -/
theorem of_mem_start {worlds : Nat → World σ} {t : Trainer Q} {jobs : List (Nat × UInt64)}
    {w : Worker σ} (h : w ∈ (start worlds t jobs).workers) :
    ∃ position seed world, ∃ p ∈ t.programs, w = .fresh position ⟨world, p⟩ seed := by
  obtain ⟨job, _, hjob⟩ := List.mem_filterMap.1 h
  obtain ⟨p, hp, rfl⟩ := Option.map_eq_some_iff.1 hjob
  exact ⟨_, _, _, p, List.mem_of_getElem? hp, rfl⟩

variable [Approximator Q] {plan : Plan σ Q} {r : Round σ} {w : Worker σ} {i : Nat}
  {result : Except TrainingError Episode}

/-- What turns keep and holds of all workers holds of them after turns. -/
theorem satisfies_run {P : Walk.Phase → Bench σ → Prop} (h : Walk.Stable plan P)
    (hr : ∀ w ∈ r.workers, w.Satisfies P) (turns : List Nat) :
    ∀ w ∈ (r.run plan turns).workers, w.Satisfies P := by
  intro w hw
  obtain ⟨i, hi⟩ := List.mem_iff_getElem?.1 hw
  exact run_satisfies h (fun w₀ hw₀ => hr w₀ (List.mem_of_getElem? hw₀)) turns w hi

omit [Approximator Q] in
/-- What holds of all rollouts at their start holds of all workers at theirs. -/
theorem satisfies_start {P : Walk.Phase → Bench σ → Prop} {t : Trainer Q}
    (start : ∀ p ∈ t.programs, ∀ w, P .arriving ⟨w, p⟩) (worlds : Nat → World σ)
    (jobs : List (Nat × UInt64)) : ∀ w ∈ (Round.start worlds t jobs).workers, w.Satisfies P := by
  intro w hw
  obtain ⟨_, _, world, p, hp, rfl⟩ := of_mem_start hw
  exact start p hp world

theorem run_append (plan : Plan σ Q) (r : Round σ) (first second : List Nat) :
    r.run plan (first ++ second) = (r.run plan first).run plan second := List.foldl_append

/-- Who is done stays as it is. -/
theorem done_run (h : ∀ w ∈ r.workers[i]?, w.Done) (turns : List Nat) :
    (r.run plan turns).workers[i]? = r.workers[i]? := by
  induction turns generalizing r with
  | nil => rfl
  | cons j turns ih =>
    have hsame : (r.turn plan j).workers[i]? = r.workers[i]? := by
      rw [workers_turn, List.getElem?_modify]
      cases hw : r.workers[i]? with
      | none => rfl
      | some w =>
        obtain ⟨result, hover⟩ := h w hw
        split
        · simp [stepped, hover]
        · rfl
    exact (ih (r := r.turn plan j) (by rwa [hsame])).trans hsame

/-- When all are done, further turns change nothing. -/
theorem run_of_done (h : ∀ w ∈ r.workers, w.Done) (turns : List Nat) : r.run plan turns = r := by
  induction turns with
  | nil => rfl
  | cons j turns ih =>
    have hsame : r.turn plan j = r := by
      rcases turn_cases plan r j with hsame | ⟨w, phase, hw, ht, _⟩
      · exact hsame
      · obtain ⟨result, hover⟩ := h w (List.mem_of_getElem? hw)
        rw [ht] at hover
        cases hover
    rw [run, List.foldl_cons, hsame]
    exact ih

/-- Turns do not take a rollout back. -/
theorem stable_left (plan : Plan σ Q) (n : Nat) :
    Walk.Stable plan fun phase _ => phase.left plan.maxSteps ≤ n :=
  fun _ t hr hleft => (Walk.left_turn (x := (_, t)) hr).le.trans hleft

/-- With more turns than it has left, a worker is done. -/
theorem done_alone {n k : Nat} (hleft : ∀ w ∈ r.workers[i]?,
      Worker.Satisfies (fun phase _ => phase.left plan.maxSteps ≤ n) w) (hk : n < k) :
    ∀ w ∈ (r.run plan (List.replicate k i)).workers[i]?, w.Done := by
  intro w hw
  cases hw₀ : r.workers[i]? with
  | none =>
    have hi := (List.getElem?_eq_some_iff.1 hw).1
    rw [length_run plan r (List.replicate k i)] at hi
    exact absurd (List.getElem?_eq_none_iff.1 hw₀) (Nat.not_le.2 hi)
  | some w₀ =>
    cases ht : w₀.task with
    | ended result =>
      rw [done_run (fun v hv => by rw [hw₀] at hv; cases hv; exact ⟨result, ht⟩), hw₀] at hw
      cases hw
      exact ⟨result, ht⟩
    | rolling phase =>
      have hnear := hleft w₀ hw₀
      rw [Worker.Satisfies, ht] at hnear
      obtain ⟨result, _, _, _, hworkers⟩ := run_alone plan hw₀ ht (hnear.trans_lt hk)
      rw [hworkers, List.getElem?_set_self (List.getElem?_eq_some_iff.1 hw₀).1] at hw
      cases hw
      exact ⟨result, rfl⟩

/-- Turns enough for each of so many workers to come to its end, one after another, wherever they
are. -/
def wrapUp (maxSteps workers : Nat) : List Nat :=
  (List.range workers).flatMap (List.replicate (2 * maxSteps + 4))

/-- After them, as many workers are done. -/
theorem done_wrapUp (hleft : ∀ i : Nat, ∀ w ∈ r.workers[i]?, Worker.Satisfies
      (fun phase _ => phase.left plan.maxSteps ≤ 2 * plan.maxSteps + 3) w) (n : Nat) :
    ∀ i < n, ∀ w ∈ (r.run plan (wrapUp plan.maxSteps n)).workers[i]?, w.Done := by
  induction n with
  | zero => exact fun i hi => absurd hi (Nat.not_lt_zero i)
  | succ n ih =>
    have hsplit : wrapUp plan.maxSteps (n + 1) =
        wrapUp plan.maxSteps n ++ List.replicate (2 * plan.maxSteps + 4) n := by
      simp [wrapUp, List.range_succ]
    rw [hsplit, run_append]
    intro i hi
    rcases Nat.lt_succ_iff_lt_or_eq.1 hi with hlt | rfl
    · rw [done_run (ih i hlt)]
      exact ih i hlt
    · exact done_alone (run_satisfies (stable_left plan _) (hleft i) _) (Nat.lt_succ_self _)

end Round

/-! ## Rotas -/

/-- How the workers of a round share the time: the world that each of them has its program in, an
order of turns, and the world afterwards. Whoever is not done after these turns comes to its end
then. -/
structure Rota (σ Q : Type) where
  worlds : List (Nat × UInt64) → Lab σ Q → Nat → World σ
  turns : List (Nat × UInt64) → Lab σ Q → List Nat
  afterwards : List (Nat × UInt64) → Lab σ Q → World σ

namespace Rota

variable {tc : Toolchain σ} {jobs : List (Nat × UInt64)} {l : Lab σ Q}

/-- All turns of a round, in order. -/
def order (rota : Rota σ Q) (jobs : List (Nat × UInt64)) (l : Lab σ Q) : List Nat :=
  rota.turns jobs l ++ Round.wrapUp l.trainer.settings.maxSteps jobs.length

variable [Approximator Q]

/-- The round when all of its turns were taken. -/
def round (rota : Rota σ Q) (tc : Toolchain σ) (jobs : List (Nat × UInt64)) (l : Lab σ Q) :
    Round σ :=
  (Round.start (rota.worlds jobs l) l.trainer jobs).run (planOf tc l.trainer) (rota.order jobs l)

/-- The trainer afterwards: its programs are put back, and what was shared is as the workers left
it. -/
def trainer (rota : Rota σ Q) (tc : Toolchain σ) (jobs : List (Nat × UInt64)) (l : Lab σ Q) :
    Trainer Q :=
  let r := rota.round tc jobs l
  { l.trainer with
    programs := Round.putBack l.trainer.programs r.workers
    schedule := r.schedule
    buffer := r.buffer }

/-- Workers that take turns as the rota has it. -/
def crew (rota : Rota σ Q) (tc : Toolchain σ) : Crew σ Q := fun jobs l =>
  .ok ((rota.round tc jobs l).answers.map (·.map fun _ => ()))
    ⟨rota.afterwards jobs l, rota.trainer tc jobs l⟩

/-- Nobody is left behind. -/
theorem done (rota : Rota σ Q) (tc : Toolchain σ) (jobs : List (Nat × UInt64)) (l : Lab σ Q) :
    ∀ w ∈ (rota.round tc jobs l).workers, w.Done := by
  intro w hw
  obtain ⟨i, hi⟩ := List.mem_iff_getElem?.1 hw
  unfold round order at hi
  rw [Round.run_append] at hi
  refine Round.done_wrapUp (n := jobs.length) (fun i => ?_) i ?_ w hi
  · exact fun v hv => Round.satisfies_run (Round.stable_left _ _)
      (Round.satisfies_start (fun _ _ _ => le_rfl) _ jobs) _ v (List.mem_of_getElem? hv)
  · have hlt := (List.getElem?_eq_some_iff.1 hi).1
    rw [length_run, length_run] at hlt
    exact hlt.trans_le (List.length_filterMap_le _ _)

theorem logged (rota : Rota σ Q) (tc : Toolchain σ) (jobs : List (Nat × UInt64)) (l : Lab σ Q) :
    Round.Logged (Round.start (rota.worlds jobs l) l.trainer jobs) (rota.round tc jobs l) :=
  (Round.logged_start _ _ jobs).run _

/-- Workers that take turns are a crew whose selections are counted. -/
theorem tallies (rota : Rota σ Q) (tc : Toolchain σ) :
    Tallies tc (rota.crew tc) fun jobs l => (rota.round tc jobs l).selections := by
  intro jobs l _ _
  exact ⟨rota.worlds jobs l, rota.order jobs l, (rota.round tc jobs l).answers,
    ⟨rota.afterwards jobs l, rota.trainer tc jobs l⟩, rfl,
      Round.tasks_of_done (rota.done tc jobs l),
    ⟨(rota.trainer tc jobs l).programs, Round.length_putBack _ _, rfl⟩, rfl⟩

end Rota

variable [Approximator Q]

/-- Crews that do the same with the jobs that a trainer picks do the same in training. -/
theorem trainBy_congr {tc : Toolchain σ} {crew crew' : Crew σ Q}
    (h : ∀ jobs l, (jobs.map (·.1)).Nodup → (∀ job ∈ jobs, job.1 < l.trainer.programs.length) →
      crew jobs l = crew' jobs l) : trainBy tc crew = trainBy tc crew' := by
  have hround (workers : Nat) : runRoundBy tc crew workers = runRoundBy tc crew' workers := by
    funext l
    unfold runRoundBy
    cases hpick : (ofTrainer (Trainer.pickSome workers) : Training σ Q (List (Nat × UInt64))) l with
    | error e l₁ => rw [EStateM.bind_of_error hpick, EStateM.bind_of_error hpick]
    | ok jobs l₁ =>
      obtain ⟨_, distinct, inside, _⟩ := jobs_of_pickSome hpick
      rw [EStateM.bind_of_ok hpick, EStateM.bind_of_ok hpick]
      show EStateM.bind _ _ _ = EStateM.bind _ _ _
      simp only [EStateM.bind, h jobs l₁ distinct inside]
  have hfor (turns : Nat) : trainForBy tc crew turns = trainForBy tc crew' turns := by
    induction turns with
    | zero => rfl
    | succ turns ih => simp only [trainForBy, hround, ih]
  simp only [trainBy, hfor]

/-- To do the jobs one after another is to take turns too, the first worker all of its turns, then
the second, each in the world that its predecessor left. -/
theorem exists_rota (tc : Toolchain σ) :
    ∃ rota : Rota σ Q, trainBy tc (rota.crew tc) = train tc := by
  have hrounds (jobs : List (Nat × UInt64)) (l : Lab σ Q) :
      ∃ (worlds : Nat → World σ) (turns : List Nat) (afterwards : World σ),
        (jobs.map (·.1)).Nodup → (∀ job ∈ jobs, job.1 < l.trainer.programs.length) →
        ∃ (results : List (Except TrainingError Episode)) (l' : Lab σ Q),
          runJobs tc jobs l = .ok (results.map (·.map fun _ => ())) l' ∧
          let r := (Round.start worlds l.trainer jobs).run (planOf tc l.trainer) turns
          r.workers.map (·.task) = results.map .ended ∧ l'.world = afterwards ∧
            l'.trainer = { l.trainer with
              programs := Round.putBack l.trainer.programs r.workers
              schedule := r.schedule
              buffer := r.buffer } := by
    by_cases h : (jobs.map (·.1)).Nodup ∧ ∀ job ∈ jobs, job.1 < l.trainer.programs.length
    · obtain ⟨worlds, turns, results, l', hjobs, htasks, htrainer, _⟩ :=
        runJobs_is_round tc jobs l h.1 h.2
      exact ⟨worlds, turns, l'.world, fun _ _ => ⟨results, l', hjobs, htasks, rfl, htrainer⟩⟩
    · exact ⟨fun _ => l.world, [], l.world, fun distinct inside => absurd ⟨distinct, inside⟩ h⟩
  choose worlds turns afterwards hrounds using hrounds
  refine ⟨⟨worlds, turns, afterwards⟩, ?_⟩
  rw [← trainBy_runJobs]
  refine trainBy_congr fun jobs l distinct inside => ?_
  obtain ⟨results, l', hjobs, htasks, hworld, htrainer⟩ := hrounds jobs l distinct inside
  have hround : Rota.round ⟨worlds, turns, afterwards⟩ tc jobs l =
      (Round.start (worlds jobs l) l.trainer jobs).run (planOf tc l.trainer) (turns jobs l) := by
    rw [Rota.round, Rota.order, Round.run_append]
    exact Round.run_of_done (Round.done_of_tasks htasks) _
  rw [hjobs, Rota.crew, Rota.trainer, hround, Round.answers_of_tasks htasks]
  cases l'
  cases hworld
  cases htrainer
  rfl

/-! ## Errands -/

/-- What a trainer can be asked to do, with the tools it then has and a rota for its rounds. -/
inductive Errand (σ Q : Type) where
  | episode (tc : Toolchain σ)
  | training (tc : Toolchain σ) (rota : Rota σ Q)
  | learning
  | evaluation (tc : Toolchain σ)
  | syncing

namespace Errand

def act : Errand σ Q → Act σ Q
  | .episode tc => .episode tc
  | .training tc rota => .training tc (rota.crew tc)
  | .learning => .learning
  | .evaluation tc => .evaluation tc
  | .syncing => .syncing

/-- Does what is asked for, whatever it answers. -/
def run (errand : Errand σ Q) : Training σ Q Unit := errand.act.run

theorem orderly (errand : Errand σ Q) : errand.act.IsOrderly := by
  cases errand with
  | training tc rota => exact (rota.tallies tc).orderly
  | _ => trivial

end Errand

/-- Every call is an errand, whatever its tools are. -/
theorem exists_errand (tc : Toolchain σ) (call : Call) :
    ∃ errand : Errand σ Q, errand.run = perform tc call := by
  cases call with
  | runEpisode => exact ⟨.episode tc, rfl⟩
  | train =>
    obtain ⟨rota, htrain⟩ := exists_rota (Q := Q) tc
    exact ⟨.training tc rota, by simp only [Errand.run, Errand.act, Act.run, perform, htrain]⟩
  | learn => exact ⟨.learning, rfl⟩
  | evaluate => exact ⟨.evaluation tc, rfl⟩

/-- The trainer after errands in turn, each in a world as it is by then; one that fails is followed
by the next. -/
def sent (t : Trainer Q) (errands : List (World σ × Errand σ Q)) : Trainer Q :=
  conduct t (errands.map fun (w, errand) => (w, errand.act))

/-- What each errand keeps, errands in turn keep. -/
theorem sent_induction {J : Trainer Q → Prop} {t : Trainer Q} (start : J t)
    (step : ∀ (w : World σ) (errand : Errand σ Q) (t : Trainer Q), J t →
      J (after errand.run ⟨w, t⟩).trainer) (errands : List (World σ × Errand σ Q)) :
    J (sent t errands) := by
  induction errands generalizing t with
  | nil => exact start
  | cons first rest ih => exact ih (step first.1 first.2 t start)

theorem Course.settings {t t' : Trainer Q} {ts : List (Trainer Q)} (h : Course t ts t') :
    t'.settings = t.settings := by
  induction h with
  | spared same => exact same.settings
  | step hlearned => cases Trainer.learns_of_ok hlearned; rfl
  | trans _ _ first second => exact second.trans first

/-- Whatever a trainer was asked for, its settings are those it was set up with. -/
theorem settings_sent (t : Trainer Q) (errands : List (World σ × Errand σ Q)) :
    (sent t errands).settings = t.settings := by
  refine sent_induction (J := fun t' => t'.settings = t.settings) rfl
    (fun w errand t' h => ?_) errands
  by_cases hs : errand.act = .syncing
  · rw [Errand.run, hs]
    exact h
  · exact (follows_run errand.orderly hs ⟨w, t'⟩).settings.trans h

/-! Two programs whose bases are too old at once, and a round of two workers with one step each.
They take turns, and for one of them the measurement of its reset fails. -/

def relaying : TrainingSettings where
  maxEpisodes := 2
  maxSteps := 1
  bufferCapacity := 2
  batchSize := 1
  updateInterval := 3
  rolloutWorkers := 2

/-- Two measurements and failures from then on. -/
def failing : Toolchain Calls :=
  let measured := Reply.output (.ok "SYMVEC1 5.0 0SYMVEC")
  Playback.toolchain {
    measure := [measured, measured, .output (.exited 1 "" "")]
    transient := .standard
    marker := "SYMVEC" }

/-- One worker has a measurement left, the other one two. -/
def relay : Rota Calls Q where
  worlds _ l i := { l.world with tools := { measures := if i = 0 then 1 else 0 } }
  turns _ _ := byTurns
  afterwards _ l := l.world

/-- A network for one feature and one action. -/
def schoolNetwork : Network := .new 1 1 0.01 0

/-- The programs that were opened, and the lab of a trainer for them. -/
def relayLab? : Option (List Program × Lab Calls Network) :=
  match Program.open failing ⟨"build", some 0⟩ "one.ll" pairedWorld with
  | .error _ _ => none
  | .ok p w =>
    match Program.open failing ⟨"build", some 0⟩ "two.ll" w with
    | .error _ _ => none
    | .ok p' w =>
      match Trainer.withSplit relaying Program.soloCatalog [p, p'] [] schoolNetwork with
      | .error _ => none
      | .ok t => some ([p, p'], ⟨w, t⟩)

/-- The round is all that is asked for. -/
def relayErrands (l : Lab Calls Network) : List (World Calls × Errand Calls Network) :=
  [(l.world, .training failing relay)]

/-- Whether both rollouts were taken in, one of them with no measurement after its reset, and
nothing was learned. -/
def relays (l : Lab Calls Network) : Bool :=
  let t := sent l.trainer (relayErrands l)
  t.buffer.length = 2 ∧ t.buffer.isFull ∧ t.programs.any (·.current.isNone) ∧ t.online.steps = 0

theorem of_relays {l : Lab Calls Network} (h : relays l = true) :
    let t := sent l.trainer (relayErrands l)
    t.buffer.length = 2 ∧ t.buffer.isFull = true ∧ t.programs.any (·.current.isNone) = true ∧
      t.online.steps = 0 :=
  of_decide_eq_true h

theorem relayLab?_relays : relayLab?.any (fun made => relays made.2) = true := by decide +kernel

/-- A trainer for opened programs that comes to a round of turns. -/
theorem exists_relay : ∃ (programs : List Program) (l : Lab Calls Network),
    (∀ p ∈ programs, ∃ settings source w w', Program.open failing settings source w = .ok p w') ∧
    Trainer.Built relaying Program.soloCatalog programs schoolNetwork l.trainer ∧
    relays l = true := by
  obtain ⟨⟨programs, l⟩, hmade, hrelays⟩ := (Option.any_eq_true ..).1 relayLab?_relays
  refine ⟨programs, l, ?_⟩
  unfold relayLab? at hmade
  split at hmade
  · cases hmade
  rename_i p w ho
  split at hmade
  · cases hmade
  rename_i p' w' ho'
  split at hmade
  · cases hmade
  rename_i t ht
  cases hmade
  refine ⟨fun p₁ hp₁ => ?_, .split (List.append_nil _).symm ht, hrelays⟩
  rcases List.mem_cons.1 hp₁ with rfl | hp₁
  · exact ⟨_, _, _, _, ho⟩
  · rw [List.mem_singleton.1 hp₁]
    exact ⟨_, _, _, _, ho'⟩

end Training

end PassTuner
