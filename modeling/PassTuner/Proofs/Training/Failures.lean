import PassTuner.Proofs.Training.Returning
import PassTuner.Proofs.Training.Rollouts

/-!
# Which failures end what

A step failure ends an episode and nothing else; any other error of an operation, and a state of
another width than the approximator's, aborts what was called. What counts is a state that the walk
goes on from: what the reset measures at the end of a rollout is looked at by the next one. Both are
shown turn by turn, so they hold of rollouts one after another and of the workers of a round. Main
statement: calls come to an error whenever one of their rollouts met what is grave, and the errors
that they come to are never step failures.
-/

namespace PassTuner

variable {σ Q α β : Type}

/-- The error that work on a bench comes to. -/
def Work.fault? (work : Work σ α) (b : Bench σ) : Option EnvironmentError :=
  match work b with
  | .ok _ _ => none
  | .error e _ => some e

/-- Errors that are more than the end of an episode. -/
def TrainingError.Severe (e : TrainingError) : Prop := e.isStepFailure = false

namespace Walk

/-! ## Errors are severe -/

section Severe

variable {A : α → Prop}

theorem severe_attempt (work : Work σ α) :
    Ends (fun _ => True) TrainingError.Severe (fun _ => True) (attempt work) := by
  intro t _
  unfold attempt
  cases work t.bench with
  | ok a b => exact ⟨trivial, trivial⟩
  | error e b =>
    dsimp only
    cases he : e.isStepFailure with
    | true => exact ⟨trivial, trivial⟩
    | false => exact ⟨trivial, he⟩

theorem sustained_severe (plan : Plan σ Q) :
    Sustained plan (fun _ => True) TrainingError.Severe :=
  ⟨severe_attempt _, fun _ => severe_attempt _, fun _ _ _ => rfl⟩

theorem severe_of_unfaulted {phase : Phase} (h : phase.fault? = none) :
    ∀ e ∈ phase.fault?, e.Severe := by
  rw [h]
  exact fun e he => absurd he (Option.not_mem_none e)

/-- A rollout on its way has no error but severe ones before it. -/
def ErrsSeverely (phase : Phase) (_ : Bench σ) : Prop := ∀ e ∈ phase.fault?, e.Severe

theorem severe_leave (plan : Plan σ Q) {walked : Except TrainingError Episode}
    (h : ∀ e ∈ (Phase.leaving walked).fault?, e.Severe) :
    Ends (fun _ => True) TrainingError.Severe (fun next => ∀ e ∈ Phase.fault? next, e.Severe)
      (leave plan walked : Walk σ Phase) := by
  intro t _
  have hreset := severe_attempt (Program.reset plan.tools) t trivial
  unfold leave
  cases ha : attempt (Program.reset plan.tools) t with
  | ok _ t' =>
    refine ⟨trivial, fun e he => ?_⟩
    cases walked <;> cases he
    exact h _ rfl
  | error fault t' =>
    rw [ha] at hreset
    cases walked with
    | ok _ =>
      refine ⟨trivial, fun e he => ?_⟩
      cases he
      exact hreset.2
    | error _ =>
      refine ⟨trivial, fun e he => ?_⟩
      cases he
      exact h _ rfl

variable [Approximator Q]

theorem severe_select (q : Q) (catalog : Catalog) (o : Observation) :
    Ends (fun _ => True) TrainingError.Severe (fun _ => True)
      (select q catalog o : Walk σ ActionId) := by
  intro t _
  unfold select
  split
  · rename_i h
    split at h <;> cases h
    exact ⟨trivial, trivial⟩
  · rename_i h
    split at h <;> cases h
    exact ⟨trivial, rfl⟩

theorem severe_onward (plan : Plan σ Q) {phase : Phase} (hr : phase.result? = none)
    (h : ∀ e ∈ phase.fault?, e.Severe) :
    Ends (fun _ => True) TrainingError.Severe (fun next => ∀ e ∈ Phase.fault? next, e.Severe)
      (onward plan phase : Walk σ Phase) := by
  by_cases hl : ∃ walked, phase = .leaving walked
  · obtain ⟨walked, rfl⟩ := hl
    exact severe_leave plan h
  · exact ((sustained_severe plan).onward hr (fun walked heq => hl ⟨walked, heq⟩)
      fun _ _ _ _ => severe_select _ _ _).mono fun _ => severe_of_unfaulted

theorem stable_errsSeverely (plan : Plan σ Q) : Stable plan ErrsSeverely := by
  intro phase t hr hsevere
  have hends := severe_onward plan hr hsevere t trivial
  cases h : onward plan phase t with
  | ok next t' =>
    rw [h] at hends
    rw [turn_of_ok h]
    exact hends.2
  | error fault t' =>
    rw [h] at hends
    rw [turn_of_error h]
    intro e he
    cases he
    exact hends.2

end Severe

/-! ## What is grave ends a rollout with an error -/

variable {plan : Plan σ Q}

/-- The error that the operation comes to which the next call makes of the program. -/
def operationFault? (plan : Plan σ Q) (b : Bench σ) : Phase → Option EnvironmentError
  | .arriving =>
    match b.program.state? with
    | some _ => none
    | none => (Program.measure plan.tools).fault? b
  | .acting _ action _ => (Program.step plan.tools plan.catalog action).fault? b
  | .leaving _ => (Program.reset plan.tools).fault? b
  | _ => none

/-- The state that the walk goes on from after the next call: the one it starts at, which is
measured if there is none, and the one that a step led to. -/
def taken? (plan : Plan σ Q) (b : Bench σ) : Phase → Option Observation
  | .arriving =>
    match b.program.state? with
    | some o => some o
    | none =>
      match Program.measure plan.tools b with
      | .ok m _ => some m.state
      | .error _ _ => none
  | .acting _ action _ =>
    match Program.step plan.tools plan.catalog action b with
    | .ok _ b => b.program.state?
    | .error _ _ => none
  | _ => none

theorem attempt_of_fault {work : Work σ α} {t : Trail σ} {e : EnvironmentError}
    (h : work.fault? t.bench = some e) (he : e.isStepFailure = false) :
    ∃ t', attempt work t = .error (.environment e) t' := by
  unfold Work.fault? at h
  unfold attempt
  cases hw : work t.bench with
  | ok a b =>
    rw [hw] at h
    cases h
  | error e' b =>
    rw [hw] at h
    cases h
    dsimp only
    rw [he]
    exact ⟨_, rfl⟩

theorem attempt_of_ok {work : Work σ α} {t : Trail σ} {a : α} {b : Bench σ}
    (h : work t.bench = .ok a b) : attempt work t = .ok (.ok a) { t with bench := b } := by
  unfold attempt
  rw [h]

theorem checkDim_of_ne {o : Observation} {expected : Nat} (h : o.length ≠ expected) (name : String)
    (t : Trail σ) :
    (checkDim o expected name : Walk σ Unit) t =
      .error (.dimensionMismatch expected o.length name) t := by
  unfold checkDim
  rw [if_pos h]
  rfl

theorem program_eq (t : Trail σ) : program t = .ok t.bench.program t := rfl

theorem observe_eq (tc : Toolchain σ) (t : Trail σ) : observe tc t =
    (match t.bench.program.state? with
      | some o => pure (some o)
      | none => attempt (Program.measure tc) >>= fun ended =>
        match ended with
        | .ok m => pure (some m.state)
        | .error _ => pure none : Walk σ (Option Observation)) t := rfl

theorem observe_of_taken {t : Trail σ} {o : Observation}
    (h : taken? plan t.bench .arriving = some o) : ∃ t',
      observe plan.tools t = .ok (some o) t' := by
  rw [observe_eq]
  simp only [taken?] at h
  cases hs : t.bench.program.state? with
  | some o' =>
    rw [hs] at h
    cases h
    exact ⟨t, rfl⟩
  | none =>
    rw [hs] at h
    cases hm : Program.measure plan.tools t.bench with
    | error e b =>
      simp only [hm] at h
      cases h
    | ok m b =>
      simp only [hm] at h
      cases h
      exact ⟨_, EStateM.bind_of_ok (attempt_of_ok hm) _⟩

variable [Approximator Q]

/-- The next call comes to what a rollout must not pass over. -/
inductive Grave (plan : Plan σ Q) (b : Bench σ) (phase : Phase) : Prop where
  | fault (e : EnvironmentError) : operationFault? plan b phase = some e →
      e.isStepFailure = false → Grave plan b phase
  | width (o : Observation) : taken? plan b phase = some o →
      o.length ≠ Approximator.inputDim plan.online → Grave plan b phase

/-- A rollout is going to come to an error. -/
def Doomed (phase : Phase) (_ : Bench σ) : Prop := phase.fault?.isSome

theorem stable_doomed (plan : Plan σ Q) : Stable plan Doomed := by
  intro phase t hr hdoomed
  match phase with
  | .leaving (.error e) =>
    simp only [turn, onward, leave]
    split <;> exact rfl
  | .gone (.error e) => cases hr

theorem doomed_of_error {phase : Phase} {t t' : Trail σ} {e : TrainingError}
    (h : onward plan phase t = .error e t') :
    Doomed (turn plan (phase, t)).1 (turn plan (phase, t)).2.bench := by
  rw [turn_of_error h]
  exact rfl

/-- What an operation must not come to dooms the rollout. -/
theorem doomed_of_fault {phase : Phase} {t : Trail σ} {e : EnvironmentError}
    (h : operationFault? plan t.bench phase = some e) (he : e.isStepFailure = false) :
    Doomed (turn plan (phase, t)).1 (turn plan (phase, t)).2.bench := by
  match phase with
  | .arriving =>
    have hobserve := observe_eq plan.tools t
    simp only [operationFault?] at h
    cases hs : t.bench.program.state? with
    | some o =>
      rw [hs] at h
      cases h
    | none =>
      rw [hs] at h hobserve
      obtain ⟨t', ht'⟩ := attempt_of_fault h he
      exact doomed_of_error (EStateM.bind_of_error
        (hobserve.trans (EStateM.bind_of_error ht' _)) _)
  | .choosing _ _ _ => cases h
  | .acting left action episode =>
    obtain ⟨t', ht'⟩ := attempt_of_fault h he
    exact doomed_of_error (EStateM.bind_of_error ht' _)
  | .leaving walked =>
    obtain ⟨t', ht'⟩ := attempt_of_fault h he
    simp only [turn, onward, leave, ht']
    cases walked <;> exact rfl
  | .gone result => cases h

/-- So does a state of another width. -/
theorem doomed_of_width {phase : Phase} {t : Trail σ} {o : Observation}
    (h : taken? plan t.bench phase = some o) (hw : o.length ≠ Approximator.inputDim plan.online) :
    Doomed (turn plan (phase, t)).1 (turn plan (phase, t)).2.bench := by
  match phase with
  | .arriving =>
    obtain ⟨t', ht'⟩ := observe_of_taken h
    have herror : onward plan .arriving t = .error (.dimensionMismatch
        (Approximator.inputDim plan.online) o.length t'.bench.program.name) t' :=
      (EStateM.bind_of_ok ht' _).trans ((EStateM.bind_of_ok (program_eq t') _).trans
        (EStateM.bind_of_error (checkDim_of_ne hw _ t') _))
    exact doomed_of_error herror
  | .choosing _ _ _ => cases h
  | .acting left action episode =>
    simp only [taken?] at h
    cases hstep : Program.step plan.tools plan.catalog action t.bench with
    | error e b =>
      simp only [hstep] at h
      cases h
    | ok reward b =>
      simp only [hstep] at h
      have herror : onward plan (.acting left action episode) t = .error (.dimensionMismatch
          (Approximator.inputDim plan.online) o.length b.program.name) ⟨b, t.explorer⟩ := by
        simp only [onward, act]
        rw [EStateM.bind_of_ok (attempt_of_ok hstep)]
        refine (EStateM.bind_of_ok (program_eq _) _).trans ?_
        simp only [h]
        exact EStateM.bind_of_error (checkDim_of_ne hw _ _) _
      exact doomed_of_error herror
  | .leaving _ => cases h
  | .gone _ => cases h

theorem doomed_of_grave {phase : Phase} {t : Trail σ} (h : Grave plan t.bench phase) :
    Doomed (turn plan (phase, t)).1 (turn plan (phase, t)).2.bench := by
  cases h with
  | fault e h he => exact doomed_of_fault h he
  | width o h hw => exact doomed_of_width h hw

/-- After so many turns a rollout is to come to what is grave. -/
def Troubled (plan : Plan σ Q) (t : Trail σ) : Prop :=
  ∃ k, Grave plan ((turn plan)^[k] (.arriving, t)).2.bench ((turn plan)^[k] (.arriving, t)).1

/-- Such a rollout comes to an error. -/
theorem rollout_of_troubled {t : Trail σ} (h : Troubled plan t) :
    ∃ e t', rollout plan.tools plan.catalog plan.online plan.maxSteps t = .error e t' := by
  obtain ⟨k, hgrave⟩ := h
  have hend := (stable_doomed plan).outcome (doomed_of_grave hgrave)
  have hsame (k : Nat) : outcome plan ((turn plan)^[k] (.arriving, t)) =
      outcome plan (.arriving, t) := by
    induction k with
    | zero => rfl
    | succ k ih => rw [Function.iterate_succ_apply', outcome_turn, ih]
  rw [show turn plan (((turn plan)^[k] (.arriving, t)).1, ((turn plan)^[k] (.arriving, t)).2) =
    (turn plan)^[k + 1] (.arriving, t) from (Function.iterate_succ_apply' ..).symm, hsame,
    outcome_arriving] at hend
  cases hr : rollout plan.tools plan.catalog plan.online plan.maxSteps t with
  | ok r t' =>
    rw [hr] at hend
    cases hend
  | error e t' => exact ⟨e, t', rfl⟩

end Walk

/-! ## Calls and rounds -/

namespace Training

variable [Approximator Q] {plan : Plan σ Q} {tc : Toolchain σ} {l : Lab σ Q}

/-- No call comes to an error that a rollout should have passed over. -/
theorem kept_severe (tc : Toolchain σ) :
    Kept tc (fun _ : Lab σ Q => True) TrainingError.Severe where
  rollout role i rng l _ := by
    unfold rollout
    cases hp : (programsOf l.trainer role)[i]? with
    | none => exact ⟨trivial, rfl⟩
    | some p =>
      have hsevere := (Walk.stable_errsSeverely (planOf tc l.trainer)).rollout
        (t := ⟨⟨l.world, p⟩, ⟨l.trainer.schedule, rng⟩⟩) (Walk.severe_of_unfaulted rfl)
      simp only [planOf] at hsevere
      dsimp only
      cases hr : Walk.rollout tc l.trainer.catalog l.trainer.online l.trainer.settings.maxSteps
          ⟨⟨l.world, p⟩, ⟨l.trainer.schedule, rng⟩⟩ with
      | ok r trail => exact ⟨trivial, fun e heq => by cases heq⟩
      | error e trail =>
        rw [hr] at hsevere
        exact ⟨trivial, fun e' heq => by cases heq; exact hsevere e rfl⟩
  others _ _ _ _ := trivial
  own _ h := h

theorem perform_of_troubled {call : Call} {s : Start σ Q} (hs : s ∈ starts tc l call)
    (h : Walk.Troubled s.plan s.trail) : ∃ e l', perform tc call l = .error e l' := by
  cases hp : perform tc call l with
  | error e l' => exact ⟨e, l', rfl⟩
  | ok _ l' =>
    obtain ⟨r, t, hok⟩ := covers_perform tc call l hp s hs
    obtain ⟨e, t', herror⟩ := Walk.rollout_of_troubled h
    rw [hok] at herror
    cases herror

theorem finishJobs_of_failed {results : List (Except TrainingError Unit)} {e : TrainingError}
    (h : .error e ∈ results) : ∃ e' l', finishJobs tc results l = .error e' l' := by
  cases hf : finishJobs tc results l with
  | error e' l' => exact ⟨e', l', rfl⟩
  | ok u l' => cases answers_finishJobs tc results l u l' hf _ h

/-- A worker that is to come to what is grave is doomed after its turn. -/
theorem stepped_doomed {w : Worker σ} {phase : Walk.Phase} (s : Exploration)
    (ht : w.task = .rolling phase) (h : Walk.Grave plan w.bench phase) :
    (Round.stepped plan s w).Satisfies Walk.Doomed := by
  unfold Round.stepped
  rw [ht]
  dsimp only
  cases hr : phase.result? with
  | none => exact Walk.doomed_of_grave (t := w.trail s) h
  | some result =>
    cases phase <;> cases hr
    cases h with
    | fault e h => cases h
    | width o h => cases h

theorem result_of_doomed {w : Worker σ} {result : Except TrainingError Episode}
    (h : w.Satisfies Walk.Doomed) (ht : w.task = .ended result) : ∃ e, result = .error e := by
  unfold Worker.Satisfies at h
  rw [ht] at h
  cases result with
  | ok e => cases h
  | error e => exact ⟨e, rfl⟩

/-- What the workers of a round come to that are all done. -/
def Round.Results (r : Round σ) (results : List (Except TrainingError Episode)) : Prop :=
  r.workers.map (·.task) = results.map .ended

namespace Round

variable {r : Round σ} {results : List (Except TrainingError Episode)}

/-- A worker that came to what is grave has an error for its result, whatever the others do. -/
theorem Results.of_grave {earlier later : List Nat} {i : Nat} {w : Worker σ} {phase : Walk.Phase}
    (h : (r.run plan (earlier ++ i :: later)).Results results)
    (hw : (r.run plan earlier).workers[i]? = some w) (ht : w.task = .rolling phase)
    (hgrave : Walk.Grave plan w.bench phase) : ∃ e, .error e ∈ results := by
  have hnext : ∀ v ∈ ((r.run plan earlier).turn plan i).workers[i]?, v.Satisfies Walk.Doomed := by
    intro v hv
    rw [workers_turn, List.getElem?_modify, hw] at hv
    cases hv
    simpa using stepped_doomed _ ht hgrave
  have hlast := run_satisfies (Walk.stable_doomed plan) hnext later
  have hsplit : r.run plan (earlier ++ i :: later) =
      ((r.run plan earlier).turn plan i).run plan later := by
    simp only [run, List.foldl_append, List.foldl_cons]
  rw [← hsplit] at hlast
  have hi : i < (r.run plan (earlier ++ i :: later)).workers.length := by
    rw [length_run, ← length_run plan r earlier]
    exact (List.getElem?_eq_some_iff.1 hw).1
  have htasks : ((r.run plan (earlier ++ i :: later)).workers.map (·.task))[i]? =
      (results.map Task.ended)[i]? := congrArg (·[i]?) h
  rw [List.getElem?_map, List.getElem?_map, List.getElem?_eq_getElem hi] at htasks
  obtain ⟨result, hresult, hover⟩ := Option.map_eq_some_iff.1 htasks.symm
  obtain ⟨e, rfl⟩ := result_of_doomed (hlast _ (List.getElem?_eq_getElem hi)) hover.symm
  exact ⟨e, List.mem_of_getElem? hresult⟩

/-- The results of a round have no errors but severe ones. -/
theorem Results.severe {worlds : Nat → World σ} {t : Trainer Q} {jobs : List (Nat × UInt64)}
    {order : List Nat} (h : ((start worlds t jobs).run plan order).Results results) :
    ∀ e, .error e ∈ results → TrainingError.Severe e := by
  intro e he
  obtain ⟨i, hi⟩ := List.mem_iff_getElem?.1 he
  have htasks : (((start worlds t jobs).run plan order).workers.map (·.task))[i]? =
      (results.map Task.ended)[i]? := congrArg (·[i]?) h
  rw [List.getElem?_map, List.getElem?_map, hi] at htasks
  obtain ⟨v, hv, hover⟩ := Option.map_eq_some_iff.1 htasks
  have hlast := run_satisfies (Walk.stable_errsSeverely plan) (i := i) (fun v₀ hv₀ => ?_) order v hv
  · unfold Worker.Satisfies at hlast
    rw [hover] at hlast
    exact hlast e rfl
  · obtain ⟨job, _, hjob⟩ := List.mem_filterMap.1 (List.mem_of_getElem? hv₀)
    obtain ⟨p, _, rfl⟩ := Option.map_eq_some_iff.1 hjob
    exact Walk.severe_of_unfaulted rfl

end Round

/-- **Failures.** A call comes to an error whenever one of its rollouts is to come to what is grave:
to an operation whose error is no step failure, or to a state that the walk is to go on from and
that is of another width. In a round of any order the same holds of finishing it, once all workers
are done and one of them came to what is grave. And no error that a call or the end of a round comes
to is a step failure. -/
theorem failures_classified (tc : Toolchain σ) (l : Lab σ Q) :
    (∀ call, (∀ e l', perform tc call l = .error e l' → e.isStepFailure = false) ∧
      ∀ s ∈ starts tc l call, Walk.Troubled s.plan s.trail →
        ∃ e l', perform tc call l = .error e l') ∧
    ∀ (worlds : Nat → World σ) (jobs : List (Nat × UInt64)) (order : List Nat)
      (results : List (Except TrainingError Episode)),
      ((Round.start worlds l.trainer jobs).run (planOf tc l.trainer) order).Results results →
      ∀ l₁ : Lab σ Q,
        (∀ e l₂, finishJobs tc (results.map (·.map fun _ => ())) l₁ = .error e l₂ →
          e.isStepFailure = false) ∧
        ∀ earlier i later w phase, order = earlier ++ i :: later →
          ((Round.start worlds l.trainer jobs).run (planOf tc l.trainer) earlier).workers[i]? =
            some w → w.task = .rolling phase → Walk.Grave (planOf tc l.trainer) w.bench phase →
          ∃ e l₂, finishJobs tc (results.map (·.map fun _ => ())) l₁ = .error e l₂ := by
  refine ⟨fun call => ⟨fun e l' h => ?_, fun s hs => perform_of_troubled hs⟩,
    fun worlds jobs order results hresults l₁ => ⟨fun e l₂ h => ?_, ?_⟩⟩
  · exact (((kept_severe tc).perform call).of_error trivial h).2
  · have hended : ∀ e, .error e ∈ results.map (·.map fun _ => ()) → TrainingError.Severe e := by
      intro e he
      obtain ⟨result, hmem, hresult⟩ := List.mem_map.1 he
      cases result <;> cases hresult
      exact hresults.severe e hmem
    exact (((kept_severe tc).finishJobs hended).of_error trivial h).2
  · rintro earlier i later w phase rfl hw ht hgrave
    obtain ⟨e, he⟩ := hresults.of_grave hw ht hgrave
    exact finishJobs_of_failed (List.mem_map.2 ⟨.error e, he, rfl⟩)

/-! Tools that report one feature two times and then two: the base is measured again after an
episode of one step, and the next episode finds a state that is too wide. -/

def widening : Toolchain Calls :=
  let measured := Reply.output (.ok "SYMVEC1 5.0 0SYMVEC")
  Playback.toolchain {
    measure := [measured, measured, .output (.ok "SYMVEC1 2 5.0 0SYMVEC")]
    transient := .standard
    marker := "SYMVEC" }

/-- Whether an observation does not fit an approximator. -/
def misfits (q : ConstantScores) (o : Observation) : Bool :=
  o.length ≠ Approximator.inputDim q

/-- Whether an episode succeeds that leaves a state that does not fit, which the next one starts
from.
-/
def widensUnseen (l : Lab Calls ConstantScores) : Bool :=
  match perform widening .runEpisode l with
  | .error _ _ => false
  | .ok _ l' =>
    ((starts widening l .runEpisode).any fun s =>
      ((Walk.turn s.plan)^[5] (.arriving, s.trail)).2.bench.program.state?.any
        (misfits s.plan.online)) &&
    (starts widening l' .runEpisode).any fun s =>
      (Walk.taken? s.plan s.trail.bench .arriving).any (misfits s.plan.online)

theorem agingLab?_widensUnseen :
    (agingLab? widening).any (fun made => widensUnseen made.2) = true := by
  decide +kernel

/-- The lab before the episode and the one after it, where the next episode is troubled. -/
theorem exists_widening : ∃ (p : Program) (l l' : Lab Calls ConstantScores),
    (∃ w : World Calls, Program.Reachable ⟨w, p⟩) ∧
    Trainer.Built { maxSteps := 1 } Program.soloCatalog [p] constant l.trainer ∧
    perform widening .runEpisode l = .ok () l' ∧
    (∃ s ∈ starts widening l .runEpisode, ∃ o,
      ((Walk.turn s.plan)^[5] (.arriving, s.trail)).2.bench.program.state? = some o ∧
      o.length ≠ Approximator.inputDim s.plan.online) ∧
    ∃ s ∈ starts widening l' .runEpisode, Walk.Troubled s.plan s.trail := by
  obtain ⟨⟨p, l⟩, hmade, hwidens⟩ := (Option.any_eq_true ..).1 agingLab?_widensUnseen
  obtain ⟨⟨reached, _⟩, built⟩ := of_agingLab? hmade
  unfold widensUnseen at hwidens
  split at hwidens
  · cases hwidens
  rename_i l' hperform
  obtain ⟨hunseen, hfound⟩ := Bool.and_eq_true_iff.1 hwidens
  obtain ⟨s, hs, hany⟩ := List.any_eq_true.1 hunseen
  obtain ⟨o, ho', hmisfits⟩ := (Option.any_eq_true ..).1 hany
  obtain ⟨s', hs', hany'⟩ := List.any_eq_true.1 hfound
  obtain ⟨o', hstate', hmisfits'⟩ := (Option.any_eq_true ..).1 hany'
  exact ⟨p, l, l', reached, built, hperform,
    ⟨s, hs, o, ho', of_decide_eq_true hmisfits⟩,
    s', hs', 0, .width o' hstate' (of_decide_eq_true hmisfits')⟩

/-- A state that was measured in a rollout may be of another width without an error: a reset does
not look at what it measures. -/
theorem measured_state_may_misfit : ¬∀ (settings : TrainingSettings) (catalog : Catalog)
    (programs : List Program) (q : ConstantScores) (l : Lab Calls ConstantScores)
    (tc : Toolchain Calls) (call : Call), Trainer.Built settings catalog programs q l.trainer →
    (∀ p ∈ programs, ∃ w : World Calls, Program.Reachable ⟨w, p⟩) →
    ∀ s ∈ starts tc l call, ∀ (k : Nat) (o : Observation),
      ((Walk.turn s.plan)^[k + 1] (.arriving, s.trail)).2.bench.program.state? = some o →
      o.length ≠ Approximator.inputDim s.plan.online → ∃ e l', perform tc call l = .error e l' := by
  intro h
  obtain ⟨p, l, l', reached, built, hperform, ⟨s, hs, o, hstate, hmisfits⟩, _⟩ := exists_widening
  obtain ⟨e, l₂, herror⟩ := h _ _ _ _ l widening .runEpisode built
    (fun p' hp' => by rw [List.mem_singleton.1 hp']; exact reached) s hs 4 o hstate hmisfits
  rw [hperform] at herror
  cases herror

theorem failures_classified_widened : ∃ l l' : Lab Calls ConstantScores,
    perform widening .runEpisode l = .ok () l' ∧
    ∃ e l₂, perform widening .runEpisode l' = .error e l₂ ∧ e.isStepFailure = false := by
  obtain ⟨p, l, l', _, _, hperform, _, s, hs, htroubled⟩ := exists_widening
  obtain ⟨hsevere, hfails⟩ := (failures_classified widening l').1 .runEpisode
  obtain ⟨e, l₂, herror⟩ := hfails s hs htroubled
  exact ⟨l, l', hperform, e, l₂, herror, hsevere e l₂ herror⟩

end Training

end PassTuner
