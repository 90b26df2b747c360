import PassTuner.Proofs.Training.Moves

/-!
# A round, turn by turn

The workers of a round take turns, in whatever order. A turn is one call that a worker makes: it
observes, selects, steps or resets its program, and in the end pushes what it gathered. A worker has
its program, its random numbers and the world that its program is in to itself. What it shares with
the others is the exploration schedule, which it holds while it selects, and the buffer, which it
holds while it pushes. A worker that takes all of its turns alone comes to what its rollout comes
to, and those behind it take theirs as if it were not there.
-/

namespace PassTuner

variable {σ Q α β : Type}

/-! ## Computations -/

/-- What held before holds afterwards, and what comes out is of a kind, be it answer or error. -/
def Ends {ε S : Type} (J : S → Prop) (E : ε → Prop) (A : α → Prop) (x : EStateM ε S α) : Prop :=
  ∀ s, J s → match x s with
    | .ok a s' => J s' ∧ A a
    | .error e s' => J s' ∧ E e

section Ends

variable {ε S : Type} {J : S → Prop} {E : ε → Prop} {A : α → Prop} {B : β → Prop}
  {x : EStateM ε S α} {s s' : S}

theorem Ends.of_ok (h : Ends J E A x) (hs : J s) {a : α} (hx : x s = .ok a s') : J s' ∧ A a := by
  have := h s hs
  rwa [hx] at this

theorem Ends.of_error (h : Ends J E A x) (hs : J s) {e : ε} (hx : x s = .error e s') :
    J s' ∧ E e := by
  have := h s hs
  rwa [hx] at this

theorem ends_pure {a : α} (h : A a) : Ends J E A (pure a) := fun _ hs => ⟨hs, h⟩

theorem ends_throw {e : ε} (h : E e) : Ends J E A (throw e) := fun _ hs => ⟨hs, h⟩

theorem Ends.mono {A' : α → Prop} (h : Ends J E A x) (hA : ∀ a, A a → A' a) : Ends J E A' x := by
  intro s hs
  cases hx : x s with
  | ok a s' => exact ⟨(h.of_ok hs hx).1, hA a (h.of_ok hs hx).2⟩
  | error e s' => exact h.of_error hs hx

theorem Ends.bind {f : α → EStateM ε S β} (first : Ends J E A x)
    (second : ∀ a, A a → Ends J E B (f a)) : Ends J E B (x >>= f) := by
  intro s hs
  cases hx : x s with
  | error e s' =>
    rw [EStateM.bind_of_error hx]
    exact first.of_error hs hx
  | ok a s' =>
    rw [EStateM.bind_of_ok hx]
    obtain ⟨hs', ha⟩ := first.of_ok hs hx
    exact second a ha s' hs'

end Ends

theorem Keeps.ends {ε S α : Type} {J : S → Prop} {x : EStateM ε S α} (h : Keeps J x) :
    Ends J (fun _ => True) (fun _ => True) x := by
  intro s hs
  cases hx : x s with
  | ok a s' => exact ⟨h.of_ok hs hx, trivial⟩
  | error e s' => exact ⟨h.of_error hs hx, trivial⟩

/-- Whatever a computation answers is of a kind. -/
def AllAnswers {ε S α : Type} (P : α → Prop) (x : EStateM ε S α) : Prop :=
  ∀ s a s', x s = .ok a s' → P a

theorem AllAnswers.pure {ε S α : Type} {P : α → Prop} {a : α} (h : P a) :
    AllAnswers P (pure a : EStateM ε S α) := by
  intro s a' s' heq
  cases heq
  exact h

/-- A computation that fails answers nothing. -/
theorem AllAnswers.throw {ε S α : Type} {P : α → Prop} {e : ε} :
    AllAnswers P (throw e : EStateM ε S α) := by
  intro s a s' heq
  cases heq

theorem AllAnswers.bind {ε S α β : Type} {P : β → Prop} {x : EStateM ε S α} {f : α → EStateM ε S β}
    (h : ∀ a, AllAnswers P (f a)) : AllAnswers P (x >>= f) := by
  intro s b s' heq
  obtain ⟨a, s₁, _, heq⟩ := EStateM.of_bind_ok heq
  exact h a s₁ b s' heq

/-- What all workers of a round go by, and none of them changes. -/
structure Plan (σ Q : Type) where
  tools : Toolchain σ
  catalog : Catalog
  online : Q
  maxSteps : Nat

namespace Walk

/-- Where a rollout is between two calls. -/
inductive Phase where
  | arriving
  | choosing (left : Nat) (o : Observation) (e : Episode)
  | acting (left : Nat) (action : ActionId) (e : Episode)
  | leaving (walked : Except TrainingError Episode)
  | gone (result : Except TrainingError Episode)

/-- How a rollout ended, if it is over. -/
def Phase.result? : Phase → Option (Except TrainingError Episode)
  | .gone result => some result
  | _ => none

/-- The error that a rollout is going to come to, after its reset or after all. -/
def Phase.fault? : Phase → Option TrainingError
  | .leaving (.error e) => some e
  | .gone (.error e) => some e
  | _ => none

/-- An action was selected and not tried yet. -/
def Phase.isActing : Phase → Bool
  | .acting .. => true
  | _ => false

variable [Approximator Q]

def arrive (plan : Plan σ Q) : Walk σ Phase := do
  match ← observe plan.tools with
  | none => return .leaving (.ok (Episode.start []))
  | some o =>
    checkDim o (Approximator.inputDim plan.online) (← program).name
    return .choosing plan.maxSteps o (Episode.start o)

def choose (plan : Plan σ Q) (left : Nat) (o : Observation) (e : Episode) : Walk σ Phase := do
  return .acting left (← select plan.online plan.catalog o) e

def act (plan : Plan σ Q) (left : Nat) (action : ActionId) (e : Episode) : Walk σ Phase := do
  match ← attempt (Program.step plan.tools plan.catalog action) with
  | .error _ => return .leaving (.ok e)
  | .ok reward =>
    let p ← program
    match p.state? with
    | none => return .leaving (.ok e)
    | some next =>
      checkDim next (Approximator.inputDim plan.online) p.name
      return .choosing left next (e.record action reward next)

/-- The reset; what ended the walk goes before what ended the reset. -/
def leave (plan : Plan σ Q) (walked : Except TrainingError Episode) : Walk σ Phase := fun t =>
  match attempt (Program.reset plan.tools) t, walked with
  | .ok _ t, walked => .ok (.gone walked) t
  | .error e t, .ok _ => .ok (.gone (.error e)) t
  | .error _ t, .error e => .ok (.gone (.error e)) t

/-- The next call of a rollout. -/
def onward (plan : Plan σ Q) : Phase → Walk σ Phase
  | .arriving => arrive plan
  | .choosing 0 _ e => return .leaving (.ok e)
  | .choosing (left + 1) o e => choose plan left o e
  | .acting left action e => act plan left action e
  | .leaving walked => leave plan walked
  | .gone result => return .gone result

/-- Where a call led. What ends the walk with an error still has the reset before it. -/
def settled : EStateM.Result TrainingError (Trail σ) Phase → Phase × Trail σ
  | .ok phase t => (phase, t)
  | .error e t => (.leaving (.error e), t)

def turn (plan : Plan σ Q) (x : Phase × Trail σ) : Phase × Trail σ :=
  settled (onward plan x.1 x.2)

/-- Turns that a rollout has left, at most. -/
def Phase.left (maxSteps : Nat) : Phase → Nat
  | .arriving => 2 * maxSteps + 3
  | .choosing left _ _ => 2 * left + 2
  | .acting left _ _ => 2 * left + 3
  | .leaving _ => 1
  | .gone _ => 0

/-- What is left of a walk. -/
def rest (plan : Plan σ Q) : Phase → Walk σ Episode
  | .arriving => run plan.tools plan.catalog plan.online plan.maxSteps
  | .choosing left o e => steps plan.tools plan.catalog plan.online left o e
  | .acting left action e => do
    match ← attempt (Program.step plan.tools plan.catalog action) with
    | .error _ => return e
    | .ok reward =>
      let p ← program
      match p.state? with
      | none => return e
      | some next =>
        checkDim next (Approximator.inputDim plan.online) p.name
        steps plan.tools plan.catalog plan.online left next (e.record action reward next)
  | .leaving (.ok e) => return e
  | .leaving (.error fault) => throw fault
  | .gone (.ok e) => return e
  | .gone (.error fault) => throw fault

/-- The end of a walk, before the reset. -/
def walked : EStateM.Result TrainingError (Trail σ) Episode → Phase × Trail σ
  | .ok e t => (.leaving (.ok e), t)
  | .error e t => (.leaving (.error e), t)

/-- What a rollout comes to. -/
def outcome (plan : Plan σ Q) (x : Phase × Trail σ) : Phase × Trail σ :=
  match x.1.result? with
  | some _ => x
  | none => turn plan (walked (rest plan x.1 x.2))

/-- The end of a rollout. -/
def gone : EStateM.Result TrainingError (Trail σ) Rollout → Phase × Trail σ
  | .ok r t => (.gone (.ok r.episode), t)
  | .error e t => (.gone (.error e), t)

variable {plan : Plan σ Q} {x y z : Phase × Trail σ} {t : Trail σ} {o : Observation} {e : Episode}

/-- Before the reset a walk is its next call and then what is left of it. -/
theorem rest_eq (plan : Plan σ Q) {phase : Phase} (hr : phase.result? = none)
    (hl : ∀ walked, phase ≠ .leaving walked) :
    (rest plan phase : Walk σ Episode) = onward plan phase >>= rest plan := by
  match phase with
  | .arriving =>
    simp only [rest, onward, arrive, run, bind_assoc]
    refine congrArg _ (funext fun observed => ?_)
    cases observed with
    | none => rfl
    | some o => simp only [bind_assoc, pure_bind, rest]
  | .choosing 0 o e => rfl
  | .choosing (left + 1) o e =>
    have hchoose : (onward plan (.choosing (left + 1) o e) : Walk σ Phase) =
      select plan.online plan.catalog o >>= fun action => pure (.acting left action e) := rfl
    have hrest : (rest plan (.choosing (left + 1) o e) : Walk σ Episode) =
      select plan.online plan.catalog o >>= fun action => rest plan (.acting left action e) := rfl
    rw [hchoose, hrest, bind_assoc]
    exact congrArg _ (funext fun action => (pure_bind _ _).symm)
  | .acting left action e =>
    simp only [rest, onward, act, bind_assoc]
    refine congrArg _ (funext fun ended => ?_)
    cases ended with
    | error fault => rfl
    | ok reward =>
      simp only [bind_assoc]
      refine congrArg _ (funext fun p => ?_)
      cases p.state? with
      | none => rfl
      | some next => simp only [bind_assoc, pure_bind, rest]
  | .leaving walked => exact absurd rfl (hl walked)
  | .gone result => cases hr

/-! ## What the calls of a walk keep -/

section Sustained

variable {J : Trail σ → Prop} {E : TrainingError → Prop}

/-- Measuring and stepping keep what holds of a trail, and an error of theirs, or of a state that
does not fit, is of a kind. -/
structure Sustained (plan : Plan σ Q) (J : Trail σ → Prop) (E : TrainingError → Prop) : Prop where
  measure : Ends J E (fun _ => True) (attempt (Program.measure plan.tools))
  step : ∀ action, Ends J E (fun _ => True) (attempt (Program.step plan.tools plan.catalog action))
  width : ∀ expected actual name, E (.dimensionMismatch expected actual name)

theorem ends_program : Ends J E (fun _ => True) (program : Walk σ Program) :=
  fun _ ht => ⟨ht, trivial⟩

namespace Sustained

variable (h : Sustained plan J E)
include h

omit [Approximator Q] in
theorem checkDim (o : Observation) (expected : Nat) (name : String) :
    Ends J E (fun _ => True) (checkDim o expected name : Walk σ Unit) := by
  unfold Walk.checkDim
  split
  · exact ends_throw (h.width _ _ _)
  · exact ends_pure trivial

omit [Approximator Q] in
theorem observe : Ends J E (fun _ => True) (observe plan.tools) := by
  unfold Walk.observe
  refine ends_program.bind fun p _ => ?_
  cases p.state? with
  | some o => exact ends_pure trivial
  | none =>
    refine h.measure.bind fun ended _ => ?_
    cases ended <;> exact ends_pure trivial

theorem arrive : Ends J E (fun next => next.fault? = none) (arrive plan : Walk σ Phase) := by
  unfold Walk.arrive
  refine h.observe.bind fun observed _ => ?_
  cases observed with
  | none => exact ends_pure rfl
  | some o =>
    exact ends_program.bind fun p _ => (h.checkDim _ _ _).bind fun _ _ => ends_pure rfl

theorem act (left : Nat) (action : ActionId) (e : Episode) :
    Ends J E (fun next => next.fault? = none) (act plan left action e : Walk σ Phase) := by
  unfold Walk.act
  refine (h.step action).bind fun ended _ => ?_
  cases ended with
  | error _ => exact ends_pure rfl
  | ok reward =>
    refine ends_program.bind fun p _ => ?_
    cases p.state? with
    | none => exact ends_pure rfl
    | some next => exact (h.checkDim _ _ _).bind fun _ _ => ends_pure rfl

/-- So does every call before the reset, if selections do; and none answers that the walk failed. -/
theorem onward {phase : Phase} (hr : phase.result? = none)
    (walks : ∀ walked, phase ≠ .leaving walked)
      (selects : ∀ left o e, phase = .choosing (left + 1) o e →
      Ends J E (fun _ => True) (select plan.online plan.catalog o)) :
    Ends J E (fun next => next.fault? = none) (onward plan phase : Walk σ Phase) := by
  cases phase with
  | arriving => exact h.arrive
  | choosing left o e =>
    cases left with
    | zero => exact ends_pure rfl
    | succ left => exact (selects left o e rfl).bind fun _ _ => ends_pure rfl
  | acting left action e => exact h.act left action e
  | leaving walked => exact absurd rfl (walks walked)
  | gone result => cases hr

end Sustained

end Sustained

/-! ## Where turns lead -/

theorem turn_of_gone (h : x.1.result?.isSome) : turn plan x = x := by
  obtain ⟨phase, t⟩ := x
  cases phase with
  | gone result => rfl
  | _ => cases h

/-- What is known of the phase that a call leads to: the end is nearer, only the reset ends a
rollout and only a selection is followed by a step. -/
structure Phase.Precedes (maxSteps : Nat) (phase next : Phase) : Prop where
  nearer : next.left maxSteps < phase.left maxSteps
  walks : (∀ walked, phase ≠ .leaving walked) → next.result? = none
  chosen : next.isActing = true → ∃ left o e, phase = .choosing (left + 1) o e

theorem answers_onward (plan : Plan σ Q) (phase : Phase) (hr : phase.result? = none) :
    AllAnswers (phase.Precedes plan.maxSteps) (onward plan phase : Walk σ Phase) := by
  match phase with
  | .arriving =>
    refine .bind fun observed => ?_
    cases observed with
    | none => exact .pure ⟨by simp only [Phase.left]; omega, fun _ => rfl, nofun⟩
    | some o =>
      exact .bind fun p => .bind fun _ =>
        .pure ⟨by simp only [Phase.left]; omega, fun _ => rfl, nofun⟩
  | .choosing 0 o e => exact .pure ⟨by simp only [Phase.left]; omega, fun _ => rfl, nofun⟩
  | .choosing (left + 1) o e =>
    exact .bind fun action =>
      .pure ⟨by simp only [Phase.left]; omega, fun _ => rfl, fun _ => ⟨left, o, e, rfl⟩⟩
  | .acting left action e =>
    refine .bind fun ended => ?_
    cases ended with
    | error fault => exact .pure ⟨by simp only [Phase.left]; omega, fun _ => rfl, nofun⟩
    | ok reward =>
      refine .bind fun p => ?_
      cases p.state? with
      | none => exact .pure ⟨by simp only [Phase.left]; omega, fun _ => rfl, nofun⟩
      | some next =>
        exact .bind fun _ => .pure ⟨by simp only [Phase.left]; omega, fun _ => rfl, nofun⟩
  | .leaving walked =>
    intro t next t' h
    obtain ⟨result, rfl⟩ : ∃ result, next = .gone result := by
      simp only [onward, leave] at h
      split at h <;> cases h <;> exact ⟨_, rfl⟩
    exact ⟨by simp only [Phase.left]; omega, fun hl => absurd rfl (hl walked), nofun⟩
  | .gone result => cases hr

theorem turn_of_ok {phase next : Phase} {t t' : Trail σ} (h : onward plan phase t = .ok next t') :
    turn plan (phase, t) = (next, t') := by
  rw [turn, h]
  rfl

theorem turn_of_error {phase : Phase} {fault : TrainingError} {t t' : Trail σ}
    (h : onward plan phase t = .error fault t') :
    turn plan (phase, t) = (.leaving (.error fault), t') := by
  rw [turn, h]
  rfl

theorem left_turn (hr : x.1.result? = none) :
    (turn plan x).1.left plan.maxSteps < x.1.left plan.maxSteps := by
  obtain ⟨phase, t⟩ := x
  cases h : onward plan phase t with
  | ok next t' =>
    rw [turn_of_ok h]
    exact (answers_onward plan phase hr t next t' h).nearer
  | error fault t' =>
    rw [turn_of_error h]
    match phase with
    | .arriving => simp only [Phase.left]; omega
    | .choosing _ _ _ => simp only [Phase.left]; omega
    | .acting _ _ _ => simp only [Phase.left]; omega
    | .leaving walked =>
      simp only [onward, leave] at h
      split at h <;> cases h
    | .gone result => cases hr

theorem turn_leaving (plan : Plan σ Q) (result : Except TrainingError Episode) (t : Trail σ) :
    (turn plan (.leaving result, t)).1.result?.isSome ∧
      outcome plan (.leaving result, t) = turn plan (.leaving result, t) := by
  refine ⟨?_, by cases result <;> rfl⟩
  simp only [turn, onward, leave]
  split <;> rfl

theorem outcome_of_gone (h : x.1.result?.isSome) : outcome plan x = x := by
  obtain ⟨result, h⟩ := Option.isSome_iff_exists.1 h
  simp only [outcome, h]

theorem outcome_of_walking (h : x.1.result? = none) :
    outcome plan x = turn plan (walked (rest plan x.1 x.2)) := by
  simp only [outcome, h]

/-- What a rollout comes to does not depend on how far it is. -/
theorem outcome_turn (plan : Plan σ Q) (x : Phase × Trail σ) :
    outcome plan (turn plan x) = outcome plan x := by
  obtain ⟨phase, t⟩ := x
  by_cases hl : ∃ result, phase = .leaving result
  · obtain ⟨result, rfl⟩ := hl
    obtain ⟨hgone, hend⟩ := turn_leaving plan result t
    rw [outcome_of_gone hgone, hend]
  cases hr : phase.result? with
  | some result => rw [turn_of_gone (by simp [hr])]
  | none =>
    have hl (result : Except TrainingError Episode) : phase ≠ .leaving result :=
      fun heq => hl ⟨result, heq⟩
    rw [outcome_of_walking (x := (phase, t)) hr, rest_eq plan hr hl]
    cases h : onward plan phase t with
    | ok next t' =>
      rw [turn_of_ok h, outcome_of_walking ((answers_onward plan phase hr t next t' h).walks hl),
        EStateM.bind_of_ok h]
    | error fault t' =>
      rw [turn_of_error h, (turn_leaving plan _ t').2, EStateM.bind_of_error h]
      rfl

/-- A rollout that starts comes to what it comes to without a break. -/
theorem outcome_arriving (plan : Plan σ Q) (t : Trail σ) : outcome plan (.arriving, t) =
    gone (rollout plan.tools plan.catalog plan.online plan.maxSteps t) := by
  rw [outcome_of_walking rfl]
  simp only [rest, rollout]
  cases run plan.tools plan.catalog plan.online plan.maxSteps t with
  | ok e t₁ =>
    simp only [walked, turn, onward, leave]
    cases attempt (Program.reset plan.tools) t₁ <;> rfl
  | error fault t₁ =>
    simp only [walked, turn, onward, leave]
    cases attempt (Program.reset plan.tools) t₁ <;> rfl

end Walk

namespace Training

/-! ## Rounds -/

/-- What a worker is at: its rollout, also when it has still to be taken in, or nothing any more. -/
inductive Task where
  | rolling (phase : Walk.Phase)
  | ended (result : Except TrainingError Episode)

/-- One of the threads of a round. -/
structure Worker (σ : Type) where
  /-- Where its program belongs among those to train on. -/
  position : Nat
  bench : Bench σ
  rng : Rng
  task : Task

/-- What a worker did to what is shared. -/
inductive Event where
  | selected (worker : Nat)
  | pushed (worker : Nat) (e : Episode) (rng : Rng)

structure Round (σ : Type) where
  schedule : Exploration
  buffer : Replay
  workers : List (Worker σ)
  /-- What happened so far to schedule and buffer. -/
  log : List Event

namespace Worker

/-- A worker with its rollout before it. -/
def fresh (position : Nat) (bench : Bench σ) (seed : UInt64) : Worker σ :=
  ⟨position, bench, .ofSeed seed, .rolling .arriving⟩

/-- The worker's rollout, while it holds the schedule. -/
def trail (w : Worker σ) (schedule : Exploration) : Trail σ := ⟨w.bench, ⟨schedule, w.rng⟩⟩

/-- The worker with a rollout that is somewhere. -/
def «at» (w : Worker σ) (x : Walk.Phase × Trail σ) : Worker σ :=
  { w with bench := x.2.bench, rng := x.2.explorer.rng, task := .rolling x.1 }

def conclude (w : Worker σ) (result : Except TrainingError Episode) : Worker σ :=
  { w with task := .ended result }

end Worker

namespace Round

/-- The buffer after a rollout was taken in, which is nothing that failed. -/
def takeIn (b : Replay) (result : Except TrainingError Episode) (rng : Rng) : Replay :=
  match result with
  | .ok e => (b.push e rng).1
  | .error _ => b

/-- What is pushed when a rollout is taken in. -/
def pushes (i : Nat) (result : Except TrainingError Episode) (rng : Rng) : List Event :=
  match result with
  | .ok e => [.pushed i e rng]
  | .error _ => []

/-- The round after a worker has taken in its rollout. -/
def conclude (r : Round σ) (i : Nat) (w : Worker σ) (result : Except TrainingError Episode) :
    Round σ :=
  { r with
    buffer := takeIn r.buffer result w.rng
    workers := r.workers.set i (w.conclude result)
    log := r.log ++ pushes i result w.rng }

/-- The round after a worker got somewhere in its rollout. -/
def proceed (r : Round σ) (i : Nat) (w : Worker σ) (x : Walk.Phase × Trail σ) : Round σ :=
  { r with
    schedule := x.2.explorer.schedule
    workers := r.workers.set i (w.at x)
    log := r.log ++ if x.1.isActing then [.selected i] else [] }

variable [Approximator Q]

/-- A turn of one of the workers. -/
def turn (plan : Plan σ Q) (r : Round σ) (i : Nat) : Round σ :=
  match r.workers[i]? with
  | none => r
  | some w =>
    match w.task with
    | .ended _ => r
    | .rolling phase =>
      match phase.result? with
      | some result => r.conclude i w result
      | none => r.proceed i w (Walk.turn plan (phase, w.trail r.schedule))

/-- Turns of workers, one after another. -/
def run (plan : Plan σ Q) (r : Round σ) (turns : List Nat) : Round σ := turns.foldl (turn plan) r

/-- A round that has workers for jobs, each on its program and in a world of its own. -/
def start (worlds : Nat → World σ) (t : Trainer Q) (jobs : List (Nat × UInt64)) : Round σ where
  schedule := t.schedule
  buffer := t.buffer
  workers := jobs.filterMap fun (i, seed) =>
    t.programs[i]?.map fun p => Worker.fresh i ⟨worlds i, p⟩ seed
  log := []

end Round

/-- What the workers of a round of a trainer go by. -/
def planOf (tc : Toolchain σ) (t : Trainer Q) : Plan σ Q :=
  ⟨tc, t.catalog, t.online, t.settings.maxSteps⟩

namespace Round

variable [Approximator Q] {plan : Plan σ Q} {r r' : Round σ} {w : Worker σ} {i : Nat}
  {phase : Walk.Phase} {result : Except TrainingError Episode}

theorem turn_of_ended (hw : r.workers[i]? = some w) (ht : w.task = .ended result) :
    r.turn plan i = r := by
  simp only [turn, hw, ht]

theorem turn_of_gone (hw : r.workers[i]? = some w) (ht : w.task = .rolling phase)
    (hr : phase.result? = some result) : r.turn plan i = r.conclude i w result := by
  simp only [turn, hw, ht, hr]

theorem turn_of_rolling (hw : r.workers[i]? = some w) (ht : w.task = .rolling phase)
    (hr : phase.result? = none) :
    r.turn plan i = r.proceed i w (Walk.turn plan (phase, w.trail r.schedule)) := by
  simp only [turn, hw, ht, hr]

theorem run_of_ended (hw : r.workers[i]? = some w) (ht : w.task = .ended result) (k : Nat) :
    r.run plan (List.replicate k i) = r := by
  induction k with
  | zero => rfl
  | succ k ih => rw [List.replicate_succ, run, List.foldl_cons, turn_of_ended hw ht]; exact ih

/-! ## One worker after another -/

/-- A worker that takes turns alone comes to what its rollout comes to, and takes it in. -/
theorem run_alone (plan : Plan σ Q) {k : Nat} (hw : r.workers[i]? = some w)
    (ht : w.task = .rolling phase)
    (hk : phase.left plan.maxSteps < k) :
    ∃ result, (Walk.outcome plan (phase, w.trail r.schedule)).1 = .gone result ∧
      (r.run plan (List.replicate k i)).schedule =
        (Walk.outcome plan (phase, w.trail r.schedule)).2.explorer.schedule ∧
      (r.run plan (List.replicate k i)).buffer = takeIn r.buffer result
        (Walk.outcome plan (phase, w.trail r.schedule)).2.explorer.rng ∧
      (r.run plan (List.replicate k i)).workers = r.workers.set i
        ((w.at (Walk.outcome plan (phase, w.trail r.schedule))).conclude result) := by
  induction k generalizing r w phase with
  | zero => omega
  | succ k ih =>
    have hi : i < r.workers.length := (List.getElem?_eq_some_iff.1 hw).1
    rw [List.replicate_succ, run, List.foldl_cons]
    cases hr : phase.result? with
    | some result =>
      have hturn : r.turn plan i = _ := turn_of_gone hw ht hr
      have hover : (r.conclude i w result).workers[i]? = some (w.conclude result) :=
        List.getElem?_set_self hi
      have hrest : (r.conclude i w result).run plan (List.replicate k i) = _ :=
        run_of_ended hover rfl k
      rw [Walk.outcome_of_gone (by simp [hr]), hturn]
      rw [run] at hrest
      rw [hrest]
      obtain ⟨position, bench, rng, task⟩ := w
      cases ht
      refine ⟨result, ?_, rfl, rfl, rfl⟩
      cases phase <;> cases hr
      rfl
    | none =>
      have hturn : r.turn plan i = _ := turn_of_rolling hw ht hr
      let x := Walk.turn plan (phase, w.trail r.schedule)
      have hnext : (r.proceed i w x).workers[i]? = some (w.at x) := List.getElem?_set_self hi
      have hleft : x.1.left plan.maxSteps < phase.left plan.maxSteps :=
        Walk.left_turn (x := (phase, w.trail r.schedule)) hr
      obtain ⟨result, hgone, hschedule, hbuffer, hworkers⟩ := ih hnext rfl (by omega)
      have hsame : Walk.outcome plan (x.1, (w.at x).trail (r.proceed i w x).schedule) =
          Walk.outcome plan (phase, w.trail r.schedule) := Walk.outcome_turn plan _
      rw [hsame] at hgone hschedule hbuffer hworkers
      rw [hturn]
      refine ⟨result, hgone, hschedule, hbuffer, hworkers.trans ?_⟩
      rw [proceed, List.set_set]
      rfl

/-- The workers behind the first one take their turns as if it were not there. -/
theorem run_behind (plan : Plan σ Q) (hs : r.schedule = r'.schedule) (hb : r.buffer = r'.buffer)
    (hw : r.workers = w :: r'.workers) (turns : List Nat) :
    (r.run plan (turns.map (· + 1))).schedule = (r'.run plan turns).schedule ∧
      (r.run plan (turns.map (· + 1))).buffer = (r'.run plan turns).buffer ∧
      (r.run plan (turns.map (· + 1))).workers = w :: (r'.run plan turns).workers := by
  induction turns generalizing r r' with
  | nil => exact ⟨hs, hb, hw⟩
  | cons i turns ih =>
    have hsame : r.workers[i + 1]? = r'.workers[i]? := by rw [hw, List.getElem?_cons_succ]
    have hone : (r.turn plan (i + 1)).schedule = (r'.turn plan i).schedule ∧
        (r.turn plan (i + 1)).buffer = (r'.turn plan i).buffer ∧
        (r.turn plan (i + 1)).workers = w :: (r'.turn plan i).workers := by
      simp only [turn, hsame]
      cases r'.workers[i]? with
      | none => exact ⟨hs, hb, hw⟩
      | some w' =>
        dsimp only
        cases w'.task with
        | ended result => exact ⟨hs, hb, hw⟩
        | rolling phase =>
          dsimp only
          cases phase.result? with
          | some result =>
            refine ⟨hs, ?_, ?_⟩
            · simp only [conclude, hb]
            · simp only [conclude, hw, List.set_cons_succ]
          | none =>
            rw [hs]
            refine ⟨rfl, hb, ?_⟩
            simp only [proceed, hw, List.set_cons_succ]
    exact ih hone.1 hone.2.1 hone.2.2

end Round

variable {tc : Toolchain σ} {l : Lab σ Q} {i : Nat} {p : Program}

/-- The first worker of a round, and the others as they are in a round whose first job is done. -/
theorem workers_start (hp : l.trainer.programs[i]? = some p) {seed : UInt64}
    {jobs : List (Nat × UInt64)} (l₁ : Lab σ Q) (fresh : i ∉ jobs.map (·.1))
    (same : ∀ j, j ≠ i → l₁.trainer.programs[j]? = l.trainer.programs[j]?)
    (worlds : Nat → World σ) :
    (Round.start (fun j => if j = i then l.world else worlds j) l.trainer
        ((i, seed) :: jobs)).workers =
      Worker.fresh i ⟨l.world, p⟩ seed :: (Round.start worlds l₁.trainer jobs).workers := by
  simp only [Round.start, List.filterMap_cons, hp, Option.map_some, if_true]
  refine congrArg _ (List.filterMap_congr fun job hjob => ?_)
  have hne : job.1 ≠ i := by
    rintro rfl
    exact fresh (List.mem_map_of_mem hjob)
  simp only [same job.1 hne, if_neg hne]

variable [Approximator Q]

/-- A job is a rollout, which is taken in when it is over. -/
theorem runJob_outcome (tc : Toolchain σ) (hp : l.trainer.programs[i]? = some p) (seed : UInt64) :
    ∃ result x, x = Walk.outcome (planOf tc l.trainer)
        (.arriving, ⟨⟨l.world, p⟩, ⟨l.trainer.schedule, .ofSeed seed⟩⟩) ∧
      x.1 = .gone result ∧ runJob tc i seed l = .ok (result.map fun _ => ())
        ⟨x.2.bench.world, { l.trainer with
          programs := l.trainer.programs.set i x.2.bench.program
          schedule := x.2.explorer.schedule
          buffer := Round.takeIn l.trainer.buffer result x.2.explorer.rng }⟩ := by
  have hprograms : (programsOf l.trainer .trained)[i]? = some p := hp
  rw [Walk.outcome_arriving, runJob_eq]
  simp only [planOf]
  cases hr : Walk.rollout tc l.trainer.catalog l.trainer.online l.trainer.settings.maxSteps
      ⟨⟨l.world, p⟩, ⟨l.trainer.schedule, .ofSeed seed⟩⟩ with
  | ok r t =>
    refine ⟨.ok r.episode, _, rfl, rfl, ?_⟩
    rw [EStateM.bind_of_ok (by simp only [rollout, hprograms, hr]; rfl)]
    rfl
  | error e t =>
    refine ⟨.error e, _, rfl, rfl, ?_⟩
    rw [EStateM.bind_of_ok (by simp only [rollout, hprograms, hr]; rfl)]
    rfl

end Training

end PassTuner
