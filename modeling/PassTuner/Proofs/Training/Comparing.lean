import Mathlib.Data.List.Forall2
import PassTuner.Proofs.Program.Twins
import PassTuner.Proofs.Training.Evaluating

/-!
# Evaluations that cannot be told apart

Without exploration a rollout goes by the scores of the network alone, unless all scores it meets
are none. So two rollouts of twins with the same network, by deterministic tools and in worlds that
share the files of the program, come to the same, whatever random numbers and schedules lead them.
Main statement: evaluations with the same network, programs held out and limit of steps give the
same results, however the two trainers came to be and whatever else is different about them.
-/

namespace PassTuner

open EStateM (InStep Result.Matched inStep_pure inStep_throw)

variable {σ Q α β : Type} {c : Common σ}

/-- Trails of twins, led by explorers that do not explore. -/
structure Trail.Twins (c : Common σ) (p₀ : Program) (t t' : Trail σ) : Prop where
  benches : Bench.Twins c p₀ t.bench t'.bench
  off : t.explorer.schedule.Off
  off' : t'.explorer.schedule.Off

/-- Not all scores for an observation are none. -/
def Scored [Approximator Q] (q : Q) (o : Observation) : Prop :=
  ∀ scores, Approximator.predict? q o.inputs = some scores → ∃ s ∈ scores, s.isNaN = false

namespace Walk

variable {p₀ : Program}

/-! ## Calls -/

theorem inStep_attempt {A : α → β → Prop} {work : Work σ α} {work' : Work σ β}
    (h : InStep (Bench.Twins c p₀) A work work') :
    InStep (Trail.Twins c p₀) (Except.Matched A) (attempt work) (attempt work') := by
  intro t t' ht
  have hw := h _ _ ht.benches
  unfold attempt
  generalize work t.bench = r, work' t'.bench = r' at hw
  cases hw with
  | ok answers benches => exact .ok (.ok answers) ⟨benches, ht.off, ht.off'⟩
  | error e benches =>
    dsimp only
    split
    · exact .ok (.error e) ⟨benches, ht.off, ht.off'⟩
    · exact .error _ ⟨benches, ht.off, ht.off'⟩

theorem inStep_program : InStep (Trail.Twins c p₀)
    (fun p q => Program.Twins c.lag p q ∧ p₀.Remains p) (program : Walk σ Program) program :=
  fun _ _ ht => .ok ⟨ht.benches.programs, ht.benches.remains⟩ ht

theorem inStep_checkDim (o : Observation) (expected : Nat) (name : String) :
    InStep (Trail.Twins c p₀) Eq (checkDim o expected name : Walk σ Unit)
      (checkDim o expected name) := by
  unfold checkDim
  split
  · exact inStep_throw _
  · exact inStep_pure rfl

variable [Approximator Q] {q : Q} {catalog : Catalog} {o : Observation}

/-- Neither random numbers nor schedules have a say in what is selected. -/
theorem inStep_select (h : Scored q o) :
    InStep (Trail.Twins c p₀) Eq (select q catalog o : Walk σ ActionId) (select q catalog o) := by
  intro t t' ht
  unfold select
  rw [Explorer.select?_off ht.off, Explorer.select?_off ht.off']
  cases hscores : Approximator.predict? q o.inputs with
  | none => exact .error _ ht
  | some scores =>
    cases hbest : argmax scores with
    | none =>
      obtain ⟨s, hs, hnumber⟩ := h scores hscores
      have hnone := isNaN_of_argmax_none hbest s hs
      rw [hnumber] at hnone
      cases hnone
    | some i =>
      simp only [Option.map_some, hbest]
      exact .ok rfl ⟨ht.benches, ht.off, ht.off'⟩

variable {plan : Plan σ Q}

omit [Approximator Q] in
theorem inStep_observe (hw : p₀.Within c) (ht : plan.tools.Deterministic c) :
    InStep (Trail.Twins c p₀) Eq (observe plan.tools) (observe plan.tools) := by
  refine inStep_program.bind fun p q ⟨htwins, _⟩ => ?_
  rw [htwins.state?]
  cases p.state? with
  | some o => exact inStep_pure rfl
  | none =>
    refine (inStep_attempt (Program.inStep_measure hw ht)).bind fun _ _ hended => ?_
    cases hended with
    | ok hm => exact inStep_pure (congrArg some hm.state.symm)
    | error e => exact inStep_pure rfl

theorem inStep_arrive (hw : p₀.Within c) (ht : plan.tools.Deterministic c) :
    InStep (Trail.Twins c p₀) Eq (arrive plan : Walk σ Phase) (arrive plan) := by
  refine (inStep_observe hw ht).bind fun observed _ heq => ?_
  subst heq
  cases observed with
  | none => exact inStep_pure rfl
  | some o =>
    refine inStep_program.bind fun p q ⟨htwins, _⟩ => ?_
    rw [htwins.name]
    exact (inStep_checkDim _ _ _).bind fun _ _ _ => inStep_pure rfl

theorem inStep_act (hw : p₀.Within c) (ht : plan.tools.Deterministic c) (left : Nat)
    (action : ActionId) (e : Episode) :
    InStep (Trail.Twins c p₀) Eq (act plan left action e : Walk σ Phase)
      (act plan left action e) := by
  refine (inStep_attempt (Program.inStep_step hw ht plan.catalog action)).bind fun _ _ hended => ?_
  cases hended with
  | error fault => exact inStep_pure rfl
  | ok hreward =>
    subst hreward
    refine inStep_program.bind fun p q ⟨htwins, _⟩ => ?_
    rw [htwins.state?, htwins.name]
    cases p.state? with
    | none => exact inStep_pure rfl
    | some next => exact (inStep_checkDim _ _ _).bind fun _ _ _ => inStep_pure rfl

/-- Every call before the reset. -/
theorem inStep_onward (hw : p₀.Within c) (ht : plan.tools.Deterministic c) {phase : Phase}
    (hr : phase.result? = none) (walks : ∀ walked, phase ≠ .leaving walked)
    (scored : ∀ left o e, phase = .choosing (left + 1) o e → Scored plan.online o) :
    InStep (Trail.Twins c p₀) Eq (onward plan phase) (onward plan phase) := by
  cases phase with
  | arriving => exact inStep_arrive hw ht
  | choosing left o e =>
    cases left with
    | zero => exact inStep_pure rfl
    | succ left =>
      refine (inStep_select (scored left o e rfl)).bind fun action _ heq => ?_
      subst heq
      exact inStep_pure rfl
  | acting left action e => exact inStep_act hw ht left action e
  | leaving walked => exact absurd rfl (walks walked)
  | gone result => cases hr

/-! ## Rollouts -/

/-- Wherever a walk selects an action from here on, not all scores are none. -/
def ScoredFrom (plan : Plan σ Q) (x : Phase × Trail σ) : Prop :=
  ∀ k left o e trail, (turn plan)^[k] x = (.choosing (left + 1) o e, trail) → Scored plan.online o

theorem matched_rest (hw : p₀.Within c) (ht : plan.tools.Deterministic c) {phase : Phase}
    {t t' : Trail σ} (scored : ScoredFrom plan (phase, t)) (h : Trail.Twins c p₀ t t') :
    Result.Matched (Trail.Twins c p₀) Eq (rest plan phase t) (rest plan phase t') := by
  -- the end is nearer after each call
  induction hn : phase.left plan.maxSteps using Nat.strongRecOn generalizing phase t t' with
  | ind n ih =>
    by_cases hl : ∃ result, phase = .leaving result
    · obtain ⟨result, rfl⟩ := hl
      cases result with
      | ok e => exact .ok rfl h
      | error fault => exact .error fault h
    cases hr : phase.result? with
    | some result =>
      cases phase with
      | gone result =>
        cases result with
        | ok e => exact .ok rfl h
        | error fault => exact .error fault h
      | _ => cases hr
    | none =>
      have walks (result : Except TrainingError Episode) : phase ≠ .leaving result :=
        fun heq => hl ⟨result, heq⟩
      rw [rest_eq plan hr walks]
      have hcall := inStep_onward hw ht hr walks fun left o e heq =>
        scored 0 left o e t (by rw [heq]; rfl)
      refine (hcall t t' h).bind fun next next' s s' hs heq hstates => ?_
      subst heq
      have hnearer := (answers_onward plan phase hr t next s hs).nearer
      refine ih _ (hn ▸ hnearer) (fun k left o e trail hk => ?_) hstates rfl
      refine scored (k + 1) left o e trail ?_
      rw [Function.iterate_succ_apply, turn_of_ok hs, hk]

theorem matched_rollout (hw : p₀.Within c) (ht : plan.tools.Deterministic c) {t t' : Trail σ}
    (scored : ScoredFrom plan (.arriving, t)) (h : Trail.Twins c p₀ t t') :
    Result.Matched (Trail.Twins c p₀) Eq
      (rollout plan.tools plan.catalog plan.online plan.maxSteps t)
      (rollout plan.tools plan.catalog plan.online plan.maxSteps t') := by
  have hrun := matched_rest hw ht scored h
  have hreset {s s' : Trail σ} (hs : Trail.Twins c p₀ s s') :=
    inStep_attempt (Program.inStep_reset hw ht) s s' hs
  unfold rollout
  change Result.Matched _ _ (run plan.tools plan.catalog plan.online plan.maxSteps t)
    (run plan.tools plan.catalog plan.online plan.maxSteps t') at hrun
  generalize run plan.tools plan.catalog plan.online plan.maxSteps t = r,
    run plan.tools plan.catalog plan.online plan.maxSteps t' = r' at hrun
  cases hrun with
  | @ok e _ s s' answers states =>
    subst answers
    have hended := hreset states
    dsimp only
    rw [states.benches.programs.cost?]
    generalize attempt (Program.reset plan.tools) s = x, attempt (Program.reset plan.tools) s' = x'
      at hended ⊢
    cases hended with
    | ok _ states => exact .ok rfl states
    | error e states => exact .error e states
  | @error e s s' states =>
    have hended := hreset states
    dsimp only
    generalize attempt (Program.reset plan.tools) s = x, attempt (Program.reset plan.tools) s' = x'
      at hended ⊢
    cases hended with
    | ok _ states => exact .error e states
    | error _ states => exact .error e states

end Walk

/-! ## Evaluations -/

/-- Labs with the same network and twins held out, where nothing is explored. -/
structure Lab.Twins (c : Common σ) (l l' : Lab σ Q) : Prop where
  worlds : World.Share c l.world l'.world
  online : l'.trainer.online = l.trainer.online
  catalog : l'.trainer.catalog = l.trainer.catalog
  maxSteps : l'.trainer.settings.maxSteps = l.trainer.settings.maxSteps
  holdout : List.Forall₂ (fun p p' => p.Within c ∧ Program.Twins c.lag p p')
    l.trainer.holdout l'.trainer.holdout
  off : l.trainer.schedule.Off
  off' : l'.trainer.schedule.Off

/-- Whenever the rollout selects an action, not all scores are none. -/
def Start.Scored [Approximator Q] (s : Start σ Q) : Prop :=
  Walk.ScoredFrom s.plan (.arriving, s.trail)

/-- What an evaluation says of the programs, all but when it was. -/
def Evaluation.results (e : Evaluation) : List ProgramResult × Float :=
  (e.programs, e.meanSpeedup)

namespace Training

variable {tc : Toolchain σ} {l l' : Lab σ Q}

/-- What a computation answers, or the error it comes to. -/
def answer (x : Training σ Q α) (l : Lab σ Q) : Except TrainingError α :=
  match x l with
  | .ok a _ => .ok a
  | .error e _ => .error e

theorem matched_answer {J : Lab σ Q → Lab σ Q → Prop} {A : α → α → Prop} {x y : Training σ Q α}
    (h : Result.Matched J A (x l) (y l')) : Except.Matched A (answer x l) (answer y l') := by
  unfold answer
  generalize x l = r, y l' = r' at h
  cases h with
  | ok answers _ => exact .ok answers
  | error e _ => exact .error e

variable [Approximator Q]

theorem matched_rollout (ht : tc.Deterministic c) {i : Nat} {rng rng' : Rng}
    (scored : ∀ s ∈ rolloutStarts tc .heldOut i rng l, s.Scored) (h : Lab.Twins c l l') :
    Result.Matched (Lab.Twins c) (fun r r' => r'.1 = r.1) (rollout tc .heldOut i rng l)
      (rollout tc .heldOut i rng' l') := by
  have hp := rel_getElem? h.holdout i
  unfold rolloutStarts at scored
  unfold rollout
  simp only [programsOf] at scored ⊢
  generalize l.trainer.holdout[i]? = found, l'.trainer.holdout[i]? = found' at hp scored ⊢
  cases hp with
  | none => exact .error _ h
  | @some p p' hp =>
    obtain ⟨hwithin, htwins⟩ := hp
    have hscored : Walk.ScoredFrom (planOf tc l.trainer)
        (.arriving, ⟨⟨l.world, p⟩, ⟨l.trainer.schedule, rng⟩⟩) :=
      scored ⟨planOf tc l.trainer, ⟨⟨l.world, p⟩, ⟨l.trainer.schedule, rng⟩⟩⟩
        (List.mem_singleton_self _)
    have hstart : Trail.Twins c p ⟨⟨l.world, p⟩, ⟨l.trainer.schedule, rng⟩⟩
        ⟨⟨l'.world, p'⟩, ⟨l'.trainer.schedule, rng'⟩⟩ :=
      ⟨⟨h.worlds, htwins, .refl p⟩, h.off, h.off'⟩
    have hwalk := Walk.matched_rollout hwithin ht hscored hstart
    have back {trail trail' : Trail σ} (states : Trail.Twins c p trail trail') : Lab.Twins c
        ⟨trail.bench.world, { setProgram l.trainer .heldOut i trail.bench.program with
          schedule := trail.explorer.schedule }⟩
        ⟨trail'.bench.world, { setProgram l'.trainer .heldOut i trail'.bench.program with
          schedule := trail'.explorer.schedule }⟩ :=
      ⟨states.benches.worlds, h.online, h.catalog, h.maxSteps,
        forall₂_set h.holdout
          ⟨hwithin.of_remains states.benches.remains, states.benches.programs⟩ i,
        states.off, states.off'⟩
    simp only [planOf] at hwalk
    dsimp only
    rw [h.catalog, h.online, h.maxSteps]
    generalize Walk.rollout tc l.trainer.catalog l.trainer.online l.trainer.settings.maxSteps
        ⟨⟨l.world, p⟩, ⟨l.trainer.schedule, rng⟩⟩ = r,
      Walk.rollout tc l.trainer.catalog l.trainer.online l.trainer.settings.maxSteps
        ⟨⟨l'.world, p'⟩, ⟨l'.trainer.schedule, rng'⟩⟩ = r' at hwalk ⊢
    cases hwalk with
    | ok answers states => exact .ok (congrArg Except.ok answers.symm) (back states)
    | error e states => exact .ok rfl (back states)

theorem matched_rolloutNext (ht : tc.Deterministic c) {i : Nat}
    (scored : ∀ s ∈ rolloutStarts tc .heldOut i l.trainer.rng l, s.Scored) (h : Lab.Twins c l l') :
    Result.Matched (Lab.Twins c) Eq (rolloutNext tc .heldOut i l)
      (rolloutNext tc .heldOut i l') := by
  rw [rolloutNext_eq, rolloutNext_eq]
  refine (matched_rollout ht scored h).bind fun rolled rolled' s s' _ heq hs => ?_
  have drawn (r r' : Rng) : InStep (Lab.Twins c) Eq
      (modifyTrainer fun t => { t with rng := r } : Training σ Q Unit)
      (modifyTrainer fun t => { t with rng := r' }) := fun _ _ h =>
    .ok rfl ⟨h.worlds, h.online, h.catalog, h.maxSteps, h.holdout, h.off, h.off'⟩
  refine (drawn _ _).bind (fun _ _ _ => ?_) s s' hs
  rw [heq]
  cases rolled.1 with
  | ok r => exact inStep_pure rfl
  | error e => exact inStep_throw e

theorem resultOf_twins {p p' : Program} {lag : Option Int} (h : Program.Twins lag p p')
    (catalog : Catalog) (r : Rollout) :
    resultOf catalog p' p'.baseCost? r = resultOf catalog p p.baseCost? r := by
  unfold resultOf
  rw [h.baseCost?, h.name]

theorem matched_evaluateFrom (ht : tc.Deterministic c) {n i : Nat}
    (scored : ∀ s ∈ evaluateFromStarts tc n i l, s.Scored) (h : Lab.Twins c l l') :
    Result.Matched (Lab.Twins c) Eq (evaluateFrom tc n i l) (evaluateFrom tc n i l') := by
  induction n generalizing i l l' with
  | zero => exact .ok rfl h
  | succ n ih =>
    have hp := rel_getElem? h.holdout i
    unfold evaluateFromStarts at scored
    rw [evaluateFrom_eq, evaluateFrom_eq]
    generalize l.trainer.holdout[i]? = found, l'.trainer.holdout[i]? = found' at hp scored ⊢
    cases hp with
    | none => exact .ok rfl h
    | @some p p' hp =>
      dsimp only at scored ⊢
      refine (matched_rolloutNext ht (fun s hs => scored s (List.mem_append_left _ hs)) h).bind
        fun r _ s s' hroll heq hs => ?_
      subst heq
      have later : ∀ start ∈ startsAfter (rolloutNext tc .heldOut i) _ l, start.Scored :=
        fun start hstart => scored start (List.mem_append_right _ hstart)
      simp only [startsAfter, hroll] at later
      have htrainers : Result.Matched (Lab.Twins c) (fun t t' => t'.catalog = t.catalog) (trainer s)
          (trainer s') := .ok hs.catalog hs
      refine htrainers.bind fun t t' s₁ s₁' hread hcatalog hs₁ => ?_
      cases hread
      rw [hcatalog, resultOf_twins hp.2]
      cases hresult : resultOf s.trainer.catalog p p.baseCost? r with
      | error e => exact .error e hs₁
      | ok result =>
        rw [hresult] at later
        refine (ih later hs₁).bind fun results _ _ _ _ heq hs₂ => ?_
        subst heq
        exact .ok rfl hs₂

theorem matched_evaluateHoldout (ht : tc.Deterministic c)
    (scored : ∀ s ∈ evaluateFromStarts tc l.trainer.holdout.length 0 l, s.Scored)
    (h : Lab.Twins c l l') :
    Result.Matched (Lab.Twins c) (fun e e' => e'.results = e.results) (evaluateHoldout tc l)
      (evaluateHoldout tc l') := by
  have hfrom := matched_evaluateFrom ht scored h
  have heval (l : Lab σ Q) : evaluateHoldout tc l =
      (evaluateFrom tc l.trainer.holdout.length 0 >>= fun programs => pure
        ⟨l.trainer.episodes, meanSpeedup programs, programs⟩ : Training σ Q Evaluation) l := rfl
  rw [heval l, heval l', ← h.holdout.length_eq]
  refine hfrom.bind fun programs _ _ _ _ heq hs => ?_
  subst heq
  exact .ok rfl hs

/-- Epsilon and mode do not matter any more for what an evaluation answers when it is over. -/
theorem answer_evaluate (tc : Toolchain σ) (l : Lab σ Q) : answer (evaluate tc) l =
    answer (evaluateHoldout tc) { l with trainer := greedily l.trainer } := by
  unfold answer evaluate
  cases evaluateHoldout tc { l with trainer := greedily l.trainer } <;> rfl

end Training

/-- A trainer that was set up, and asked for whatever it can be asked for since. -/
def Trainer.Reached [Approximator Q] (τ : Type) (t : Trainer Q) : Prop :=
  ∃ settings catalog programs q t₀, Built settings catalog programs q t₀ ∧
    ∃ acts : List (World τ × Training.Act τ Q),
      (∀ act ∈ acts, act.2.IsOrderly) ∧ t = Training.conduct t₀ acts

namespace Training

variable [Approximator Q] {τ τ' : Type} {tc : Toolchain σ} {t t' : Trainer Q} {w w' : World σ}

theorem off_greedily (h : t.Reached τ) : (greedily t).schedule.Off := by
  obtain ⟨_, _, _, _, t₀, built, acts, hc, rfl⟩ := h
  exact off_greedily_conduct built hc

/-- **Two evaluations.** Two trainers were set up and used in any ways; now they have the same
online network, catalog and limit of steps, and hold out the same programs. Their worlds have in
common what work on these programs uses, and by that the outputs of the tools are decided. If the
rollouts of one evaluation meet no scores that are all none, both have the same results and the same
mean speedup, or fail with the same error. -/
theorem evaluation_goes_by_network_and_programs (ht : t.Reached τ) (ht' : t'.Reached τ')
    (online : t'.online = t.online) (catalog : t'.catalog = t.catalog)
    (maxSteps : t'.settings.maxSteps = t.settings.maxSteps) {c : Common σ}
    (holdout : List.Forall₂ (Program.Twins c.lag) t.holdout t'.holdout)
    (within : ∀ p ∈ t.holdout, p.Within c) (deterministic : tc.Deterministic c)
    (worlds : World.Share c w w') (scored : ∀ s ∈ evaluateStarts tc ⟨w, t⟩, s.Scored) :
    (answer (evaluate tc) ⟨w', t'⟩).map Evaluation.results =
      (answer (evaluate tc) ⟨w, t⟩).map Evaluation.results := by
  have htwins : Lab.Twins c ⟨w, greedily t⟩ ⟨w', greedily t'⟩ :=
    { worlds := worlds
      catalog := catalog
      maxSteps := maxSteps
      online := congrArg (Approximator.setTraining false) online
      holdout := (List.forall₂_and_left _ _).2 ⟨within, holdout⟩
      off := off_greedily ht
      off' := off_greedily ht' }
  have hanswers := matched_answer (matched_evaluateHoldout deterministic scored htwins)
  rw [answer_evaluate, answer_evaluate]
  generalize answer (evaluateHoldout tc) { (⟨w, t⟩ : Lab σ Q) with trainer := greedily t } = r,
    answer (evaluateHoldout tc) { (⟨w', t'⟩ : Lab σ Q) with trainer := greedily t' } = r'
    at hanswers ⊢
  cases hanswers with
  | ok results => exact congrArg Except.ok results
  | error e => rfl

/-! Two trainers with one program held out, each on a disk where another program has its own code.
-/

def exploring : TrainingSettings :=
    { schooling with seed := 7, epsilon := 0.5, bufferCapacity := 3 }

def exploringWorld : World Calls where
  disk := schoolWorld.disk.put ["two.ll"] (.file "; cost 3.0\n".toUTF8)
  clock := 99
  tools := { measures := 4 }

/-- The source of the program held out, and all that is built. -/
def heldOutFiles : Common Calls where
  home := []
  places p := ["build"] <:+ p ∨ p = ["three.ll"]
  lag := none
  memories _ _ := True

theorem share_exploringWorld : World.Share heldOutFiles schoolWorld exploringWorld where
  disk := by
    refine ⟨rfl, rfl, fun p hp => Disk.get?_put_other _ ?_ _⟩
    rintro rfl
    exact absurd hp (by decide : ¬(["build"] <:+ ["two.ll"] ∨ ["two.ll"] = ["three.ll"]))
  clock := nofun
  tools := trivial

theorem within_heldOutFiles : (paired "three").Within heldOutFiles := by
  refine .of_encloses
    ⟨"build", ["three"], by decide +kernel, by decide, by decide, ?_⟩ ?_ ?_ ?_ nofun
  · exact fun q hq => .inl hq
  · intro q hq
    have hways : Disk.ways [] (Path.names "three.ll") = [["three.ll"]] := by decide +kernel
    exact .inr (List.mem_singleton.1 (hways ▸ hq))
  · exact ⟨by decide, by decide, by decide, by decide, by decide⟩
  · exact ⟨by decide, by decide, by decide, by decide, by decide⟩

theorem deterministic_steady : Program.steady.Deterministic heldOutFiles :=
  Playback.deterministic (fun _ _ => trivial) (by decide) (by decide) (by decide) (by decide)

/-- A trainer that holds out the third program. -/
def held? (settings : TrainingSettings) (programs : List Program) :
    Option (Trainer ConstantScores) :=
  (Trainer.withSplit settings Program.soloCatalog programs [paired "three"] constant).toOption

theorem of_held? {settings : TrainingSettings} {programs : List Program}
    {t : Trainer ConstantScores}
    (h : held? settings programs = some t) :
    Trainer.Built settings Program.soloCatalog (programs ++ [paired "three"]) constant t ∧
    t.online = constant ∧ t.catalog = Program.soloCatalog ∧ t.settings = settings ∧
    t.holdout = [paired "three"] := by
  unfold held? at h
  cases hmade : Trainer.withSplit settings Program.soloCatalog programs
    [paired "three"] constant with
  | error e =>
    rw [hmade] at h
    cases h
  | ok t' =>
    rw [hmade] at h
    cases h
    obtain ⟨_, _, hparts⟩ := Except.of_bind_ok hmade
    have heq := Trainer.eq_of_ofParts hparts
    exact ⟨.split rfl hmade, by rw [heq]; rfl, by rw [heq], by rw [heq], by rw [heq]⟩

/-- Whether an evaluation answers, with a single step of the program. -/
def stepsOnce (t : Trainer ConstantScores) : Bool :=
  match answer (evaluate Program.steady) ⟨schoolWorld, t⟩ with
  | .ok e => e.programs.map (·.steps) = [1]
  | .error _ => false

theorem held?_schooling :
    (held? schooling [paired "one", paired "two"]).any stepsOnce = true := by decide +kernel

theorem held?_exploring : (held? exploring [paired "two"]).isSome = true := by decide +kernel

theorem evaluation_goes_by_network_and_programs_held : ∃ t t' : Trainer ConstantScores,
    held? schooling [paired "one", paired "two"] = some t ∧ stepsOnce t = true ∧
    held? exploring [paired "two"] = some t' ∧
    (answer (evaluate Program.steady) ⟨exploringWorld, t'⟩).map Evaluation.results =
      (answer (evaluate Program.steady) ⟨schoolWorld, t⟩).map Evaluation.results := by
  obtain ⟨t, ht, hsteps⟩ := (Option.any_eq_true ..).1 held?_schooling
  obtain ⟨t', ht'⟩ := Option.isSome_iff_exists.1 held?_exploring
  obtain ⟨built, online, catalog, settings, holdout⟩ := of_held? ht
  obtain ⟨built', online', catalog', settings', holdout'⟩ := of_held? ht'
  have reached : t.Reached Calls := ⟨_, _, _, _, t, built, [], nofun, rfl⟩
  have reached' : t'.Reached Calls := ⟨_, _, _, _, t', built', [], nofun, rfl⟩
  refine ⟨t, t', ht, hsteps, ht', evaluation_goes_by_network_and_programs reached reached'
    (online'.trans online.symm) (catalog'.trans catalog.symm) (by rw [settings, settings']; rfl)
    (c := heldOutFiles) ?_ ?_ deterministic_steady share_exploringWorld ?_⟩
  · rw [holdout, holdout']
    exact .cons ⟨rfl, rfl, rfl, rfl, rfl, rfl, .none, .none⟩ .nil
  · intro p hp
    rw [holdout, List.mem_singleton] at hp
    rw [hp]
    exact within_heldOutFiles
  · intro s hs k left o e trail _ scores hscores
    obtain ⟨hplan, _⟩ := of_evaluateFromStarts (off_greedily reached) hs
    have honline : s.plan.online = Approximator.setTraining false constant := by
      rw [hplan, ← online]
      rfl
    rw [honline] at hscores
    cases hscores
    exact ⟨0, List.mem_singleton_self _, by decide +kernel⟩

end Training

end PassTuner
