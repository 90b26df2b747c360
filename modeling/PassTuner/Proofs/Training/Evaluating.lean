import PassTuner.Proofs.Number.Signs
import PassTuner.Proofs.Training.Greatest
import PassTuner.Proofs.Training.Rollouts
import PassTuner.Proofs.Training.Rotas
import PassTuner.Proofs.Training.Timetable

/-!
# Evaluation is greedy and leaves no trace

An evaluation puts epsilon to zero. A selection takes nothing off it then, because the floor is not
below zero, and does not explore, because no number that is drawn is below zero. So each action has
the best of the scores, except where all scores are none. Afterwards epsilon and mode are as before,
and nothing else was changed that learning goes by. Main statement: an evaluation, for a network and
whatever its trainer was asked for before, is such rollouts, one after another, and nothing else.
-/

namespace PassTuner

variable {σ Q α : Type}

/-! ## Greedy selections -/

/-- The action has the best of the scores, if they are not all none. -/
def Greedy (scores : List Float32) (action : ActionId) : Prop :=
  (∀ s ∈ scores, s.isNaN = true) ∨ ∃ i, argmax scores = some i ∧ action = UInt16.ofNat i

namespace Exploration

/-- Nothing is explored, and that stays so. -/
structure Off (e : Exploration) : Prop where
  epsilon : e.epsilon = 0
  floor : ¬e.floor < 0

theorem Off.decayOnce {e : Exploration} (h : e.Off) : e.decayOnce = e :=
  decayOnce_of_floor (by rw [h.epsilon]; exact h.floor)

theorem Off.iterate {e : Exploration} (h : e.Off) (n : Nat) : Exploration.decayOnce^[n] e = e :=
  Function.iterate_fixed h.decayOnce n

end Exploration

namespace Explorer

variable [Approximator Q] {x x' : Explorer} {q : Q} {catalog : Catalog} {input : List Float32}
  {action : ActionId}

/-- Without exploration an action is selected by its score, if there is a best one. -/
theorem select?_off (h : x.schedule.Off) (q : Q) (catalog : Catalog) (input : List Float32) :
    x.select? q catalog input = (Approximator.predict? q input).map fun scores =>
      match argmax scores with
      | some i => (UInt16.ofNat i, ⟨x.schedule, x.rng.unit.2⟩)
      | none => ((catalog.sample x.rng.unit.2).1,
          ⟨x.schedule, (catalog.sample x.rng.unit.2).2⟩) := by
  have hnot : ¬x.rng.unit.1 < x.schedule.epsilon := by
    rw [h.epsilon]
    exact Doubles.unit_not_neg x.rng
  unfold select?
  dsimp only
  rw [if_neg hnot]
  cases Approximator.predict? q input with
  | none => rfl
  | some scores => cases hbest : argmax scores <;> simp [hbest, h.decayOnce]

theorem greedy_of_select? (h : x.schedule.Off)
    (hs : x.select? q catalog input = some (action, x')) :
    ∃ scores, Approximator.predict? q input = some scores ∧ Greedy scores action := by
  rw [select?_off h] at hs
  obtain ⟨scores, hscores, hs⟩ := Option.map_eq_some_iff.1 hs
  refine ⟨scores, hscores, ?_⟩
  cases hbest : argmax scores with
  | none => exact .inl (isNaN_of_argmax_none hbest)
  | some i =>
    rw [hbest] at hs
    cases hs
    exact .inr ⟨i, hbest, rfl⟩

end Explorer

namespace Walk

variable [Approximator Q] {plan : Plan σ Q} {x : Phase × Trail σ}

/-- Turns leave a schedule alone that is off. -/
theorem schedule_turns {e : Exploration} (h : e.Off) (hx : x.2.explorer.schedule = e) (k : Nat) :
    ((turn plan)^[k] x).2.explorer.schedule = e := by
  induction k with
  | zero => exact hx
  | succ k ih =>
    rw [Function.iterate_succ_apply']
    cases hr : ((turn plan)^[k] x).1.result? with
    | some result => rwa [turn_of_gone (by rw [hr]; rfl)]
    | none =>
      rcases schedule_turn plan hr with ⟨_, hs⟩ | ⟨_, hs⟩
      · rw [hs, ih, h.decayOnce]
      · rw [hs, ih]

/-- A turn that leads to an action has selected it. -/
theorem select?_of_turn {left left' : Nat} {o : Observation} {e e' : Episode} {t t' : Trail σ}
    {action : ActionId}
    (h : turn plan (.choosing (left + 1) o e, t) = (.acting left' action e', t')) :
    ∃ explorer, t.explorer.select? plan.online plan.catalog o.inputs = some (action, explorer) := by
  cases hselect : t.explorer.select? plan.online plan.catalog o.inputs with
  | none =>
    have hfails : select plan.online plan.catalog o t = .error .outsideDomain t := by
      simp only [select, hselect]
    have hchoose : onward plan (.choosing (left + 1) o e) t = .error .outsideDomain t :=
      EStateM.bind_of_error hfails _
    rw [turn_of_error hchoose] at h
    cases h
  | some selected =>
    obtain ⟨chosen, explorer⟩ := selected
    have hworks : select plan.online plan.catalog o t = .ok chosen { t with explorer } := by
      simp only [select, hselect]
    have hchoose : onward plan (.choosing (left + 1) o e) t =
        .ok (.acting left chosen e) { t with explorer } := EStateM.bind_of_ok hworks _
    rw [turn_of_ok hchoose] at h
    cases h
    exact ⟨explorer, rfl⟩

end Walk

namespace Training

variable [Approximator Q] {tc : Toolchain σ} {l : Lab σ Q}

/-! ## The rollouts of an evaluation -/

/-- The rollouts from some held-out program on go by what the trainer goes by. -/
theorem of_evaluateFromStarts (hoff : l.trainer.schedule.Off) {n i : Nat} {s : Start σ Q}
    (hs : s ∈ evaluateFromStarts tc n i l) :
    s.plan = planOf tc l.trainer ∧ s.trail.explorer.schedule = l.trainer.schedule := by
  induction n generalizing i l with
  | zero => exact absurd hs List.not_mem_nil
  | succ n ih =>
    unfold evaluateFromStarts at hs
    split at hs
    · exact absurd hs List.not_mem_nil
    rcases List.mem_append.1 hs with hs | hs
    · unfold rolloutStarts at hs
      split at hs
      · exact absurd hs List.not_mem_nil
      · rw [List.mem_singleton.1 hs]
        exact ⟨rfl, rfl⟩
    · unfold startsAfter at hs
      split at hs
      · rename_i r l₁ hroll
        dsimp only at hs
        split at hs
        · exact absurd hs List.not_mem_nil
        · have hrolled := (rolls_rolloutNext tc .heldOut i).of_ok hroll
          obtain ⟨k, hk⟩ := hrolled.selections
          have hschedule : l₁.trainer.schedule = l.trainer.schedule := by rw [hk, hoff.iterate]
          have hplan : planOf tc l₁.trainer = planOf tc l.trainer := by rw [hrolled.others]; rfl
          have := ih (by rw [hschedule]; exact hoff) hs
          rwa [hschedule, hplan] at this
      · exact absurd hs List.not_mem_nil

/-! ## What an evaluation comes to -/

/-- Programs that wait for their rollouts, the world that they are in, and what leads the
rollouts. -/
structure Lineup (σ : Type) where
  world : World σ
  explorer : Explorer
  programs : List Program

/-- Rollouts one after another, from those that wait to what is left: where each starts, and the
results, or the error that was the end. -/
inductive Performs (plan : Plan σ Q) : Lineup σ → List (Start σ Q) →
    Except TrainingError (List ProgramResult) → Lineup σ → Prop where
  | done (w : World σ) (x : Explorer) : Performs plan ⟨w, x, []⟩ [] (.ok []) ⟨w, x, []⟩
  | failed {w : World σ} {x : Explorer} {p : Program} {ps : List Program} {e : TrainingError}
    {t : Trail σ}
    (walk : Walk.rollout plan.tools plan.catalog plan.online plan.maxSteps
      ⟨⟨w, p⟩, x⟩ = .error e t) :
    Performs plan ⟨w, x, p :: ps⟩ [⟨plan, ⟨w, p⟩, x⟩] (.error e)
      ⟨t.bench.world, t.explorer, t.bench.program :: ps⟩
  | unnamed {w : World σ} {x : Explorer} {p : Program} {ps : List Program} {r : Rollout}
    {e : TrainingError} {t : Trail σ}
    (walk : Walk.rollout plan.tools plan.catalog plan.online plan.maxSteps ⟨⟨w, p⟩, x⟩ = .ok r t)
    (unnamed : resultOf plan.catalog p p.baseCost? r = .error e) :
    Performs plan ⟨w, x, p :: ps⟩ [⟨plan, ⟨w, p⟩, x⟩] (.error e)
      ⟨t.bench.world, t.explorer, t.bench.program :: ps⟩
  | next {w w' : World σ} {x x' : Explorer} {p : Program} {ps ps' : List Program} {r : Rollout}
    {result : ProgramResult} {t : Trail σ} {ss : List (Start σ Q)}
    {answer : Except TrainingError (List ProgramResult)}
    (walk : Walk.rollout plan.tools plan.catalog plan.online plan.maxSteps ⟨⟨w, p⟩, x⟩ = .ok r t)
    (named : resultOf plan.catalog p p.baseCost? r = .ok result)
    (rest : Performs plan ⟨t.bench.world, t.explorer, ps⟩ ss answer ⟨w', x', ps'⟩) :
    Performs plan ⟨w, x, p :: ps⟩ (⟨plan, ⟨w, p⟩, x⟩ :: ss) (answer.map (result :: ·))
      ⟨w', x', t.bench.program :: ps'⟩

/-- To answer, or to fail, and leave the lab in a state. -/
def ended (answer : Except TrainingError α) (l : Lab σ Q) :
    EStateM.Result TrainingError (Lab σ Q) α :=
  match answer with
  | .ok a => .ok a l
  | .error e => .error e l

/-- The lab when rollouts have left that much of it, of held-out programs from some position on. -/
def Lineup.leave (left : Lineup σ) (i : Nat) (l : Lab σ Q) : Lab σ Q :=
  ⟨left.world, { l.trainer with
    holdout := l.trainer.holdout.take i ++ left.programs
    schedule := left.explorer.schedule
    rng := left.explorer.rng }⟩

omit [Approximator Q] in
theorem Lineup.drop_leave {i : Nat} (hi : i < l.trainer.holdout.length) (w : World σ) (x : Explorer)
    (p : Program) (ps : List Program) :
    (Lineup.leave ⟨w, x, p :: ps⟩ i l).trainer.holdout.drop (i + 1) = ps := by
  have hfirst : (l.trainer.holdout.take i).length = i := List.length_take_of_le hi.le
  rw [leave, List.drop_append, hfirst, List.drop_eq_nil_of_le (by omega), Nat.add_sub_cancel_left]
  rfl

omit [Approximator Q] in
/-- To go on from the next position is to go on with the program before it put back. -/
theorem Lineup.leave_leave {i : Nat} (hi : i < l.trainer.holdout.length) (w : World σ)
    (x : Explorer)
    (p : Program) (left : Lineup σ) :
    left.leave (i + 1) (Lineup.leave ⟨w, x, p :: l.trainer.holdout.drop (i + 1)⟩ i l) =
      Lineup.leave ⟨left.world, left.explorer, p :: left.programs⟩ i l := by
  have hfirst : (l.trainer.holdout.take i).length = i := List.length_take_of_le hi.le
  have htake : (l.trainer.holdout.take i ++ p :: l.trainer.holdout.drop (i + 1)).take (i + 1) =
      l.trainer.holdout.take i ++ [p] := by
    rw [List.take_append, hfirst, List.take_of_length_le (by omega), Nat.add_sub_cancel_left]
    rfl
  simp only [leave, htake, List.append_assoc, List.singleton_append]

theorem rolloutNext_heldOut (tc : Toolchain σ) {i : Nat} (hi : i < l.trainer.holdout.length) :
    let left (t : Trail σ) : Lab σ Q := Lineup.leave
      ⟨t.bench.world, t.explorer, t.bench.program :: l.trainer.holdout.drop (i + 1)⟩ i l
    rolloutNext tc .heldOut i l =
      match Walk.rollout tc l.trainer.catalog l.trainer.online l.trainer.settings.maxSteps
        ⟨⟨l.world, l.trainer.holdout[i]⟩, ⟨l.trainer.schedule, l.trainer.rng⟩⟩ with
      | .ok r t => .ok r (left t)
      | .error e t => .error e (left t) := by
  intro left
  have hput (t : Trail σ) : left t = ⟨t.bench.world, { l.trainer with
      holdout := l.trainer.holdout.set i t.bench.program
      schedule := t.explorer.schedule
      rng := t.explorer.rng }⟩ := by
    simp only [left, Lineup.leave, List.set_eq_take_append_cons_drop, if_pos hi]
  rw [rolloutNext_eq]
  cases hwalk : Walk.rollout tc l.trainer.catalog l.trainer.online l.trainer.settings.maxSteps
      ⟨⟨l.world, l.trainer.holdout[i]⟩, ⟨l.trainer.schedule, l.trainer.rng⟩⟩ with
  | ok r t =>
    have hroll : rollout tc .heldOut i l.trainer.rng l = .ok (.ok r, t.explorer.rng)
        ⟨t.bench.world, { setProgram l.trainer .heldOut i t.bench.program with
          schedule := t.explorer.schedule }⟩ := by
      simp only [rollout, programsOf, List.getElem?_eq_getElem hi, hwalk]
    rw [EStateM.bind_of_ok hroll]
    exact congrArg (EStateM.Result.ok r) (hput t).symm
  | error e t =>
    have hroll : rollout tc .heldOut i l.trainer.rng l = .ok (.error e, t.explorer.rng)
        ⟨t.bench.world, { setProgram l.trainer .heldOut i t.bench.program with
          schedule := t.explorer.schedule }⟩ := by
      simp only [rollout, programsOf, List.getElem?_eq_getElem hi, hwalk]
    rw [EStateM.bind_of_ok hroll]
    exact congrArg (EStateM.Result.error e) (hput t).symm

theorem evaluateFrom_of_failed {tc : Toolchain σ} {i : Nat} {l l' : Lab σ Q} {p : Program}
    {e : TrainingError} (hp : l.trainer.holdout[i]? = some p)
    (hroll : rolloutNext tc .heldOut i l = .error e l') (n : Nat) :
    evaluateFrom tc (n + 1) i l = .error e l' := by
  rw [evaluateFrom_eq, hp]
  exact EStateM.bind_of_error hroll _

theorem evaluateFrom_of_rolled {tc : Toolchain σ} {i : Nat} {l l' : Lab σ Q} {p : Program}
    {r : Rollout} (hp : l.trainer.holdout[i]? = some p)
    (hroll : rolloutNext tc .heldOut i l = .ok r l') (n : Nat) : evaluateFrom tc (n + 1) i l =
      match resultOf l'.trainer.catalog p p.baseCost? r with
      | .error e => .error e l'
      | .ok result => EStateM.bind (evaluateFrom tc n (i + 1))
          (fun results => pure (result :: results)) l' := by
  rw [evaluateFrom_eq, hp]
  refine (EStateM.bind_of_ok hroll _).trans ((EStateM.bind_of_ok rfl _).trans ?_)
  cases resultOf l'.trainer.catalog p p.baseCost? r <;> rfl

/-- From some held-out program on, the rollouts that are listed are performed, and what they come to
is answered. -/
theorem performs_evaluateFrom (tc : Toolchain σ) {n i : Nat} {l : Lab σ Q}
    (count : l.trainer.holdout.length = i + n) : ∃ answer left,
    Performs (planOf tc l.trainer)
      ⟨l.world, ⟨l.trainer.schedule, l.trainer.rng⟩, l.trainer.holdout.drop i⟩
      (evaluateFromStarts tc n i l) answer left ∧
    evaluateFrom tc n i l = ended answer (left.leave i l) := by
  induction n generalizing i l with
  | zero =>
    have hnone : l.trainer.holdout.drop i = [] := List.drop_eq_nil_of_le (by omega)
    have hall : l.trainer.holdout.take i = l.trainer.holdout := List.take_of_length_le (by omega)
    refine ⟨.ok [], ⟨l.world, ⟨l.trainer.schedule, l.trainer.rng⟩, []⟩, ?_, ?_⟩
    · rw [hnone]
      exact .done _ _
    · rw [Lineup.leave, hall, List.append_nil]
      rfl
  | succ n ih =>
    have hi : i < l.trainer.holdout.length := by omega
    have hp : l.trainer.holdout[i]? = some l.trainer.holdout[i] := List.getElem?_eq_getElem hi
    have hroll := rolloutNext_heldOut tc hi
    rw [evaluateFromStarts, hp, List.drop_eq_getElem_cons hi]
    simp only [rolloutStarts, programsOf, hp]
    cases hwalk : Walk.rollout tc l.trainer.catalog l.trainer.online l.trainer.settings.maxSteps
        ⟨⟨l.world, l.trainer.holdout[i]⟩, ⟨l.trainer.schedule, l.trainer.rng⟩⟩ with
    | error e t =>
      rw [hwalk] at hroll
      refine ⟨.error e, ⟨t.bench.world, t.explorer, t.bench.program :: _⟩, ?_,
        evaluateFrom_of_failed hp hroll n⟩
      simp only [startsAfter, hroll, List.append_nil]
      exact .failed hwalk
    | ok r t =>
      rw [hwalk] at hroll
      have hleft : _ = l.trainer.holdout.length := List.length_set (i := i) (a := t.bench.program)
      rw [List.set_eq_take_append_cons_drop, if_pos hi] at hleft
      obtain ⟨answer, left, hrest, hanswer⟩ := ih (i := i + 1) (l := Lineup.leave
        ⟨t.bench.world, t.explorer, t.bench.program :: l.trainer.holdout.drop (i + 1)⟩ i l)
        (hleft.trans (by omega))
      rw [Lineup.leave_leave hi] at hanswer
      rw [evaluateFrom_of_rolled hp hroll]
      dsimp only [Lineup.leave]
      cases hresult : resultOf l.trainer.catalog l.trainer.holdout[i]
          l.trainer.holdout[i].baseCost? r with
      | error e =>
        refine ⟨.error e, ⟨t.bench.world, t.explorer, t.bench.program :: _⟩, ?_, rfl⟩
        simp only [startsAfter, hroll]
        dsimp only [Lineup.leave]
        rw [hresult]
        exact .unnamed hwalk hresult
      | ok result =>
        refine ⟨answer.map (result :: ·),
          ⟨left.world, left.explorer, t.bench.program :: left.programs⟩,
          ?_, ?_⟩
        · simp only [startsAfter, hroll]
          dsimp only [Lineup.leave]
          rw [hresult]
          refine .next hwalk hresult ?_
          rw [Lineup.drop_leave hi] at hrest
          exact hrest
        · cases answer with
          | error e => exact EStateM.bind_of_error hanswer _
          | ok results => exact EStateM.bind_of_ok hanswer _

/-- All of an evaluation: rollouts of the programs held out with the trainer as it is without
exploration, and epsilon and mode as before when they are over. -/
theorem performs_evaluate (tc : Toolchain σ) (l : Lab σ Q) : ∃ answer left,
    Performs (planOf tc (greedily l.trainer))
      ⟨l.world, ⟨(greedily l.trainer).schedule, l.trainer.rng⟩, l.trainer.holdout⟩
      (evaluateStarts tc l) answer left ∧
    evaluate tc l =
      ended (answer.map fun programs => ⟨l.trainer.episodes, meanSpeedup programs, programs⟩)
        ⟨left.world, { l.trainer with
          holdout := left.programs
          rng := left.explorer.rng
          online := Approximator.setTraining (Approximator.isTraining l.trainer.online)
            (Approximator.setTraining false l.trainer.online) }⟩ := by
  obtain ⟨answer, left, performs, heldOut⟩ :=
    performs_evaluateFrom tc (l := { l with trainer := greedily l.trainer }) (Nat.zero_add _).symm
  have hrolled := rolls_evaluateFrom tc l.trainer.holdout.length 0
    { l with trainer := greedily l.trainer }
  have hafter : after (evaluateFrom tc l.trainer.holdout.length 0)
      { l with trainer := greedily l.trainer } =
        left.leave 0 { l with trainer := greedily l.trainer } := by
    unfold after
    rw [show evaluateFrom tc l.trainer.holdout.length 0 _ = _ from heldOut]
    cases answer <;> rfl
  rw [hafter] at hrolled
  have hschedule : { left.explorer.schedule with epsilon := l.trainer.schedule.epsilon } =
      l.trainer.schedule :=
    congrArg₂ (Exploration.mk l.trainer.schedule.epsilon) hrolled.floor hrolled.decay
  refine ⟨answer, left, performs, ?_⟩
  unfold evaluate
  cases answer with
  | error e =>
    have hheld : evaluateHoldout tc { l with trainer := greedily l.trainer } = .error e
        (left.leave 0 { l with trainer := greedily l.trainer }) := EStateM.bind_of_error heldOut _
    rw [hheld]
    simp only [restored, Lineup.leave, hschedule]
    rfl
  | ok results =>
    have hheld : evaluateHoldout tc { l with trainer := greedily l.trainer } =
        .ok ⟨l.trainer.episodes, meanSpeedup results, results⟩
          (left.leave 0 { l with trainer := greedily l.trainer }) := EStateM.bind_of_ok heldOut _
    rw [hheld]
    simp only [restored, Lineup.leave, hschedule]
    rfl

/-! ## What acts leave to the schedule -/

theorem floor_course {t t' : Trainer Q} {ts : List (Trainer Q)} (h : Course t ts t') :
    t'.schedule.floor = t.schedule.floor := by
  induction h with
  | spared same => exact same.floor
  | step hl =>
    cases Trainer.learns_of_ok hl with
    | step _ _ _ _ _ => rfl
  | trans _ _ first second => exact second.trans first

theorem floor_conduct {t : Trainer Q} {acts : List (World σ × Act σ Q)}
    (hc : ∀ act ∈ acts, act.2.IsOrderly) : (conduct t acts).schedule.floor = t.schedule.floor := by
  induction acts generalizing t with
  | nil => rfl
  | cons first rest ih =>
    refine (ih fun act hact => hc act (List.mem_cons_of_mem _ hact)).trans ?_
    by_cases hs : first.2 = .syncing
    · rw [hs]
      rfl
    · exact floor_course (follows_run (hc first List.mem_cons_self) hs ⟨first.1, t⟩)

/-- Nothing is explored while a trainer is evaluated, whatever it was asked for before. -/
theorem off_greedily_conduct {settings : TrainingSettings} {catalog : Catalog}
    {programs : List Program} {q : Q} {t₀ : Trainer Q}
    (ht : Trainer.Built settings catalog programs q t₀) {acts : List (World σ × Act σ Q)}
    (hc : ∀ act ∈ acts, act.2.IsOrderly) : (greedily (conduct t₀ acts)).schedule.Off := by
  refine ⟨rfl, ?_⟩
  have hfloor : (greedily (conduct t₀ acts)).schedule.floor = settings.epsilonFloor := by
    refine (floor_conduct hc).trans ?_
    rw [ht.eq]
  rw [hfloor]
  exact Doubles.not_lt_of_le (TrainingSettings.valid_of_validate ht.starts.1.valid).epsilonFloor.1

/-- **Evaluation.** Whatever the trainer of a network was asked for before: an evaluation is one
rollout after another of the programs held out, with the online network not in training and epsilon
at zero; it answers their results or the error that was the end of them. However it ends, it leaves
the trainer as it was but for its held-out programs and its random numbers. And whenever it selects
an action, epsilon is zero and the action has the best of the scores of the online network, unless
all of them are none. -/
theorem evaluation_leaves_learning_alone {settings : TrainingSettings} {catalog : Catalog}
    {programs : List Program} {q : Network} {t₀ : Trainer Network}
    (ht : Trainer.Built settings catalog programs q t₀) (acts : List (World σ × Act σ Network))
    (hc : ∀ act ∈ acts, act.2.IsOrderly) (tc : Toolchain σ) (w : World σ) :
    let t := conduct t₀ acts
    ∃ answer left,
      Performs ⟨tc, t.catalog, { t.online with training := false }, t.settings.maxSteps⟩
        ⟨w, ⟨{ t.schedule with epsilon := 0 }, t.rng⟩, t.holdout⟩ (evaluateStarts tc ⟨w, t⟩) answer
        left ∧
      evaluate tc ⟨w, t⟩ =
        ended (answer.map fun programs => ⟨t.episodes, meanSpeedup programs, programs⟩)
          ⟨left.world, { t with holdout := left.programs, rng := left.explorer.rng }⟩ ∧
      ∀ s ∈ evaluateStarts tc ⟨w, t⟩, ∀ k steps o e trail,
        (Walk.turn s.plan)^[k] (.arriving, s.trail) = (.choosing (steps + 1) o e, trail) →
        trail.explorer.schedule.epsilon = 0 ∧
        ∀ steps' action e' trail',
          (Walk.turn s.plan)^[k + 1] (.arriving, s.trail) = (.acting steps' action e', trail') →
          ∃ scores, Approximator.predict? t.online o.inputs = some scores ∧
            Greedy scores action := by
  intro t
  have hoff : (greedily t).schedule.Off := off_greedily_conduct ht hc
  obtain ⟨answer, left, performs, evaluated⟩ := performs_evaluate tc ⟨w, t⟩
  refine ⟨answer, left, performs, evaluated, fun s hs k steps o e trail hk => ?_⟩
  obtain ⟨hplan, hschedule⟩ := of_evaluateFromStarts hoff hs
  have hstays : ((Walk.turn s.plan)^[k] (.arriving, s.trail)).2.explorer.schedule =
      (greedily t).schedule := Walk.schedule_turns hoff hschedule k
  rw [hk] at hstays
  refine ⟨by rw [hstays]; rfl, fun steps' action e' trail' hnext => ?_⟩
  rw [Function.iterate_succ_apply', hk] at hnext
  obtain ⟨explorer, hselect⟩ := Walk.select?_of_turn hnext
  rw [hplan] at hselect
  exact Explorer.greedy_of_select? (by rw [hstays]; exact hoff) hselect

/-! A network with a program held out, after a round of two workers that took turns. -/

def enrolled? : Option (Trainer Network) :=
  (Trainer.withSplit relaying Program.soloCatalog [paired "one", paired "two"] [paired "three"]
    schoolNetwork).toOption

theorem of_enrolled? {t : Trainer Network} (h : enrolled? = some t) : Trainer.Built relaying
    Program.soloCatalog [paired "one", paired "two", paired "three"] schoolNetwork t := by
  unfold enrolled? at h
  cases hmade : Trainer.withSplit relaying Program.soloCatalog [paired "one", paired "two"]
      [paired "three"] schoolNetwork with
  | error e => rw [hmade] at h; cases h
  | ok t₀ => rw [hmade] at h; cases h; exact .split rfl hmade

def lessons : List (World Calls × Act Calls Network) :=
  [(schoolWorld, .training Program.steady (relay.crew Program.steady))]

/-- Whether there were two episodes, and a rollout of an evaluation then selects an action at
once. -/
def selects (t : Trainer Network) : Bool :=
  decide (t.episodes = 2) && match evaluateStarts Program.steady ⟨schoolWorld, t⟩ with
    | [] => false
    | s :: _ =>
      match (Walk.turn s.plan)^[1] (.arriving, s.trail),
        (Walk.turn s.plan)^[2] (.arriving, s.trail) with
      | (.choosing (_ + 1) _ _, _), (.acting _ _ _, _) => true
      | _, _ => false

theorem enrolled?_selects : enrolled?.any (fun t => selects (conduct t lessons)) = true := by
  decide +kernel

theorem evaluation_leaves_learning_alone_lessons : ∃ t₀ : Trainer Network,
    Trainer.Built relaying Program.soloCatalog [paired "one", paired "two", paired "three"]
      schoolNetwork t₀ ∧
    (∀ act ∈ lessons, act.2.IsOrderly) ∧
    let t := conduct t₀ lessons
    t.episodes = 2 ∧
    (∃ programs rng, (after (evaluate Program.steady) ⟨schoolWorld, t⟩).trainer =
      { t with holdout := programs, rng }) ∧
    ∃ s ∈ evaluateStarts Program.steady ⟨schoolWorld, t⟩, ∃ steps o e trail steps' action e' trail',
      (Walk.turn s.plan)^[1] (.arriving, s.trail) = (.choosing (steps + 1) o e, trail) ∧
      (Walk.turn s.plan)^[2] (.arriving, s.trail) = (.acting steps' action e', trail') ∧
      trail.explorer.schedule.epsilon = 0 ∧
      ∃ scores, Approximator.predict? t.online o.inputs = some scores ∧ Greedy scores action := by
  obtain ⟨t₀, hmade, hselects⟩ := (Option.any_eq_true ..).1 enrolled?_selects
  have hc : ∀ act ∈ lessons, act.2.IsOrderly := by
    intro act hact
    rw [List.mem_singleton.1 hact]
    exact (relay.tallies Program.steady).orderly
  obtain ⟨answer, left, -, evaluated, greedy⟩ := evaluation_leaves_learning_alone
    (of_enrolled? hmade) lessons hc Program.steady schoolWorld
  obtain ⟨episodes, hselects⟩ := Bool.and_eq_true_iff.1 hselects
  refine ⟨t₀, of_enrolled? hmade, hc, of_decide_eq_true episodes,
    ⟨left.programs, left.explorer.rng, ?_⟩, ?_⟩
  · unfold after
    rw [evaluated]
    cases answer <;> rfl
  · split at hselects
    · cases hselects
    rename_i s ss hlisted
    split at hselects
    · rename_i steps o e trail steps' action e' trail' hfirst hsecond
      have listed : s ∈ evaluateStarts Program.steady ⟨schoolWorld, conduct t₀ lessons⟩ := by
        rw [hlisted]
        exact List.mem_cons_self
      obtain ⟨epsilon, next⟩ := greedy s listed 1 steps o e trail hfirst
      exact ⟨s, listed, steps, o, e, trail, steps', action, e', trail', hfirst, hsecond, epsilon,
        next steps' action e' trail' hsecond⟩
    · cases hselects

end Training

end PassTuner
