import PassTuner.Proofs.Program.Recording
import PassTuner.Proofs.Training.Calls

/-!
# Moves

The moves of a walk are its successful steps. Every move was made where the program was measured, so
what it was rewarded for and what was observed before and after it are of the same two measurements.
Main statement: the episode of a rollout has a transition for each of its moves, in order.
-/

namespace PassTuner

variable {σ Q α β : Type}

/-! ## Moves -/

/-- A step, and the bench before and after it. -/
structure Move (σ : Type) where
  tools : Toolchain σ
  before : Bench σ
  action : ActionId
  reward : Float
  after : Bench σ

/-- The move is a successful step, which led from one measurement to another and was rewarded for
their costs; the transition is its action and reward between what the two measurements observed. -/
structure Move.Shows (catalog : Catalog) (m : Move σ) (x : Transition) : Prop where
  made : Program.step m.tools catalog m.action m.before = .ok m.reward m.after
  action : x.action = m.action
  reward : x.reward = m.reward
  measured : ∃ first second : Measurement, m.before.program.current = some first ∧
    m.after.program.current = some second ∧ x.state = first.state ∧ x.next = second.state ∧
    Cost.reward first.cost second.cost = .ok m.reward

/-- A step from a measured program is rewarded for the cost of its measurement. -/
theorem Program.reward_of_step {tc : Toolchain σ} {catalog : Catalog} {action : ActionId}
    {b b' : Bench σ} {reward : Float} {first : Measurement} (hb : Coherent b.program)
    (hfirst : b.program.current = some first)
    (h : step tc catalog action b = .ok reward b') :
    ∃ second, b'.program.current = some second ∧
      Cost.reward first.cost second.cost = .ok reward := by
  have hcost : b.program.measuredCost? = some first.cost := by
    have hs := hb.measured.2 (by rw [hfirst]; rfl)
    simp [measuredCost?, cost?, hs, hfirst]
  cases hd : catalog.describe action with
  | error fault =>
    rw [step_of_unknown tc hd] at h
    cases h
  | ok flag =>
    rw [step_of_known tc hd, EStateM.bind_of_ok (standingCost_of_measured tc hcost)] at h
    obtain ⟨v, a, b₁, second, b₂, _, _, _, hreward, rfl⟩ := of_advance_ok h
    exact ⟨second, rfl, hreward⟩

/-- What a successful step from a measured program shows. -/
theorem Program.shows_of_step {tc : Toolchain σ} {catalog : Catalog} {action : ActionId}
    {b b' : Bench σ} {reward : Float} {o : Observation} (hb : Coherent b.program)
    (ho : b.program.state? = some o) (h : step tc catalog action b = .ok reward b') :
    ∃ next, Coherent b'.program ∧ b'.program.state? = some next ∧
      Move.Shows catalog ⟨tc, b, action, reward, b'⟩ ⟨o, action, reward, next⟩ := by
  obtain ⟨first, hfirst, rfl⟩ := Option.map_eq_some_iff.1 ho
  obtain ⟨second, hsecond, hreward⟩ := reward_of_step hb hfirst h
  have hkept := coherent_step tc catalog action hb
  rw [Work.after_of_ok h] at hkept
  exact ⟨second.state, hkept, by simp [state?, hsecond],
    ⟨h, rfl, rfl, first, second, hfirst, hsecond, rfl, rfl, hreward⟩⟩

/-! ## Programs of a walk -/

namespace Walk

/-- The program of a trail fits together. -/
def Coherent (t : Trail σ) : Prop := Program.Coherent t.bench.program

variable [Approximator Q] {tc : Toolchain σ} {catalog : Catalog} {q : Q} {t t' : Trail σ}
  {o : Observation} {e e' : Episode}

theorem keeps_attempt {work : Work σ α}
    (h : ∀ b, Program.Coherent b.program → Program.Coherent (work.after b).program) :
    Keeps Coherent (attempt work) := by
  intro t ht
  have hb := h t.bench ht
  unfold attempt
  cases hw : work t.bench with
  | ok a b =>
    rw [Work.after_of_ok hw] at hb
    exact hb
  | error e b =>
    rw [Work.after_of_error hw] at hb
    dsimp only
    cases e.isStepFailure with
    | true => exact hb
    | false => exact hb

theorem bench_of_select {action : ActionId} (h : select q catalog o t = .ok action t') :
    t'.bench = t.bench := by
  unfold select at h
  split at h
  · cases h
  · cases h
    rfl

theorem keeps_select (q : Q) (catalog : Catalog) (o : Observation) :
    Keeps Coherent (select q catalog o : Walk σ ActionId) := by
  intro t ht
  unfold select
  split
  · rename_i h
    split at h
    · cases h
    · cases h
      exact ht
  · rename_i h
    split at h
    · cases h
      exact ht
    · cases h

theorem keeps_program : Keeps Coherent (program : Walk σ Program) := fun _ h => h

theorem keeps_observe (tc : Toolchain σ) : Keeps Coherent (observe tc) := by
  unfold observe
  refine keeps_program.bind fun p => ?_
  cases p.state? with
  | some o => exact keeps_pure _
  | none =>
    refine (keeps_attempt fun b => Program.coherent_measure tc).bind fun ended => ?_
    cases ended with
    | ok m => exact keeps_pure _
    | error _ => exact keeps_pure _

/-! ## Moves of a walk -/

/-- The successful steps of a walk from an observation. -/
def movesFrom (tc : Toolchain σ) (catalog : Catalog) (q : Q) :
    Nat → Observation → Trail σ → List (Move σ)
  | 0, _, _ => []
  | n + 1, o, t =>
    match select q catalog o t with
    | .error _ _ => []
    | .ok action t =>
      match Program.step tc catalog action t.bench with
      | .error _ _ => []
      | .ok reward b => ⟨tc, t.bench, action, reward, b⟩ ::
        match b.program.state? with
        | none => []
        | some next =>
          if next.length = Approximator.inputDim q then movesFrom tc catalog q n next
            ⟨b, t.explorer⟩
          else []

/-- The successful steps of a walk. -/
def moves (tc : Toolchain σ) (catalog : Catalog) (q : Q) (maxSteps : Nat) (t : Trail σ) :
    List (Move σ) :=
  match observe tc t with
  | .error _ _ => []
  | .ok none _ => []
  | .ok (some o) t =>
    if o.length = Approximator.inputDim q then movesFrom tc catalog q maxSteps o t else []

theorem of_attempt_ok {work : Work σ α} {ended : Except EnvironmentError α}
    (h : attempt work t = .ok ended t') :
    (∃ a b, ended = .ok a ∧ work t.bench = .ok a b ∧ t' = { t with bench := b }) ∨
      ∃ e b, ended = .error e ∧ work t.bench = .error e b := by
  unfold attempt at h
  cases hw : work t.bench with
  | ok a b =>
    simp only [hw] at h
    cases h
    exact .inl ⟨a, b, rfl, rfl, rfl⟩
  | error e b =>
    simp only [hw] at h
    split at h
    · cases h
      exact .inr ⟨e, b, rfl, rfl⟩
    · cases h

theorem of_checkDim_ok {expected : Nat} {name : String} {u : Unit}
    (h : checkDim o expected name t = .ok u t') : o.length = expected ∧ t' = t := by
  unfold checkDim at h
  split at h
  · cases h
  · rename_i hlength
    cases h
    exact ⟨not_not.1 hlength, rfl⟩

theorem current_of_state? {p : Program} (h : p.state? = some o) :
    ∃ m, p.current = some m ∧ m.state = o := Option.map_eq_some_iff.1 h

/-- The episode of a walk has a transition for each move, in order. -/
theorem steps_shown {n : Nat} (ht : Coherent t) (ho : t.bench.program.state? = some o)
    (hat : e.At o) (h : steps tc catalog q n o e t = .ok e' t') :
    ∃ xs, List.Forall₂ (Move.Shows catalog) (movesFrom tc catalog q n o t) xs ∧
      e'.transitions = e.transitions ++ xs := by
  induction n generalizing o e t with
  | zero =>
    cases h
    exact ⟨[], .nil, (List.append_nil _).symm⟩
  | succ n ih =>
    unfold steps at h
    obtain ⟨action, t₁, hselect, h⟩ := EStateM.of_bind_ok h
    obtain ⟨ended, t₂, hattempt, h⟩ := EStateM.of_bind_ok h
    have hbench := bench_of_select hselect
    rcases of_attempt_ok hattempt with ⟨reward, b, rfl, hstep, rfl⟩ | ⟨fault, b, rfl, hstep⟩
    · obtain ⟨p, t₃, hprogram, h⟩ := EStateM.of_bind_ok h
      cases hprogram
      have ht₁ : Program.Coherent t₁.bench.program := by rw [hbench]; exact ht
      obtain ⟨next, hb, hstate, hshows⟩ := Program.shows_of_step ht₁ (by rwa [hbench]) hstep
      simp only [hstate] at h
      obtain ⟨_, t₃, hdim, h⟩ := EStateM.of_bind_ok h
      obtain ⟨hlength, hsame⟩ := of_checkDim_ok hdim
      rw [hsame] at h
      obtain ⟨xs, hxs, htransitions⟩ := ih (t := ⟨b, t₁.explorer⟩) hb hstate
        (hat.record action reward next) h
      refine ⟨⟨o, action, reward, next⟩ :: xs, ?_, ?_⟩
      · simp only [movesFrom, hselect, hstep, hstate, if_pos hlength]
        exact .cons hshows hxs
      · rw [htransitions, hat.transitions_record, List.append_assoc]
        rfl
    · cases h
      refine ⟨[], ?_, (List.append_nil _).symm⟩
      simp only [movesFrom, hselect, hstep]
      exact .nil

theorem state?_of_observe (ht : Coherent t) (h : observe tc t = .ok (some o) t') :
    Coherent t' ∧ t'.bench.program.state? = some o := by
  refine ⟨(keeps_observe tc).of_ok ht h, ?_⟩
  unfold observe at h
  obtain ⟨p, t₁, hprogram, h⟩ := EStateM.of_bind_ok h
  cases hprogram
  cases hs : t.bench.program.state? with
  | some o₁ =>
    simp only [hs] at h
    cases h
    exact hs
  | none =>
    simp only [hs] at h
    obtain ⟨ended, t₂, hattempt, h⟩ := EStateM.of_bind_ok h
    rcases of_attempt_ok hattempt with ⟨m, b, rfl, hm, rfl⟩ | ⟨fault, b, rfl, _⟩
    · cases h
      simp [Program.state?, (Program.measure_of_ok hm).current]
    · cases h

theorem run_shown {maxSteps : Nat} (ht : Coherent t)
    (h : run tc catalog q maxSteps t = .ok e t') :
    List.Forall₂ (Move.Shows catalog) (moves tc catalog q maxSteps t) e.transitions := by
  unfold run at h
  obtain ⟨observed, t₁, hobserve, h⟩ := EStateM.of_bind_ok h
  cases observed with
  | none =>
    cases h
    simp only [moves, hobserve]
    exact .nil
  | some o =>
    obtain ⟨p, t₂, hprogram, h⟩ := EStateM.of_bind_ok h
    cases hprogram
    obtain ⟨_, t₃, hdim, h⟩ := EStateM.of_bind_ok h
    obtain ⟨hlength, hsame⟩ := of_checkDim_ok hdim
    rw [hsame] at h
    obtain ⟨ht₂, ho⟩ := state?_of_observe ht hobserve
    obtain ⟨xs, hxs, htransitions⟩ := steps_shown ht₂ ho (Episode.at_start o) h
    simp only [moves, hobserve, if_pos hlength]
    rw [htransitions, Episode.transitions_start, List.nil_append]
    exact hxs

theorem of_rollout_ok {maxSteps : Nat} {r : Rollout}
    (h : rollout tc catalog q maxSteps t = .ok r t') :
    ∃ t₁, run tc catalog q maxSteps t = .ok r.episode t₁ ∧
      r.finalCost = t₁.bench.program.cost? := by
  unfold rollout at h
  cases hrun : run tc catalog q maxSteps t with
  | error e t₁ =>
    simp only [hrun] at h
    cases ha : attempt (Program.reset tc) t₁ <;> simp [ha] at h
  | ok episode t₁ =>
    simp only [hrun] at h
    cases ha : attempt (Program.reset tc) t₁ with
    | error _ _ => simp [ha] at h
    | ok _ t₂ =>
      simp only [ha] at h
      cases h
      exact ⟨t₁, rfl, rfl⟩

theorem rollout_shown {maxSteps : Nat} {r : Rollout} (ht : Coherent t)
    (h : rollout tc catalog q maxSteps t = .ok r t') :
    List.Forall₂ (Move.Shows catalog) (moves tc catalog q maxSteps t) r.episode.transitions := by
  obtain ⟨t₁, hrun, _⟩ := of_rollout_ok h
  exact run_shown ht hrun

end Walk

namespace Training

variable {l l₁ : Lab σ Q} {x : Training σ Q α}

/-! ## The lab after work -/

theorem after_of_ok {a : α} (h : x l = .ok a l₁) : after x l = l₁ := by
  simp only [after, h]

theorem after_of_error {e : TrainingError} (h : x l = .error e l₁) : after x l = l₁ := by
  simp only [after, h]

theorem after_bind_of_ok {a : α} (h : x l = .ok a l₁) (f : α → Training σ Q β) :
    after (x >>= f) l = after (f a) l₁ := by
  unfold after
  rw [EStateM.bind_of_ok h]

theorem after_bind_of_error {e : TrainingError} (h : x l = .error e l₁)
    (f : α → Training σ Q β) : after (x >>= f) l = l₁ :=
  after_of_error (EStateM.bind_of_error h f)

/-! ## Rollouts in work -/

variable [Approximator Q]

theorem rolloutNext_eq (tc : Toolchain σ) (role : Role) (i : Nat) (l : Lab σ Q) :
    rolloutNext tc role i l = (rollout tc role i l.trainer.rng >>= fun rolled =>
      modifyTrainer (fun t => { t with rng := rolled.2 }) >>= fun _ =>
        match rolled.1 with
        | .ok r => pure r
        | .error e => throw e : Training σ Q Rollout) l := rfl

theorem runEpisode_eq (tc : Toolchain σ) : runEpisode tc = (ofTrainer Trainer.pick >>= fun i =>
    rolloutNext tc .trained i >>= fun r =>
      modifyTrainer (fun t =>
        { t with buffer := (t.buffer.push r.episode t.rng).1,
                 rng := (t.buffer.push r.episode t.rng).2 }) >>= fun _ =>
        finishEpisode tc >>= fun _ => pure r.episode.length : Training σ Q Nat) := rfl

theorem runJob_eq (tc : Toolchain σ) (i : Nat) (seed : UInt64) :
    runJob tc i seed = (rollout tc .trained i (.ofSeed seed) >>= fun rolled =>
      match rolled.1 with
      | .error e => pure (.error e)
      | .ok r =>
        modifyTrainer (fun t => { t with buffer := (t.buffer.push r.episode rolled.2).1 }) >>=
          fun _ => pure (.ok ()) : Training σ Q (Except TrainingError Unit)) := rfl

def constant : ConstantScores := ⟨1, [0], [], true⟩

end Training

end PassTuner
