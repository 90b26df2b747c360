import PassTuner.Proofs.Program.Failing
import PassTuner.Proofs.Training.Greatest
import PassTuner.Proofs.Training.Rotas

/-!
# Rollouts that stay in range

A trainer checks widths where numbers come in: when it is set up, and for every observation a
program reports, since a program may change the length of its record at any time. From then on
nothing is asked for that is not there. An approximator only gets inputs of its own width, so that
it makes no difference what it would do with others. That is shown for each turn of a rollout, and
so it holds of rollouts without a break and of workers that take turns alike.
-/

namespace PassTuner

variable {σ S Q α β : Type}

/-! ## Ranges -/

/-- A sample that an approximator of these widths can be fitted to. -/
def FitSample.Fits (inputs outputs : Nat) (x : FitSample) : Prop :=
  x.input.length = inputs ∧ x.action < outputs

/-- A transition between observations of a width, by an action of a catalog. -/
structure Transition.Fits (inputs outputs : Nat) (x : Transition) : Prop where
  state : x.state.length = inputs
  next : x.next.length = inputs
  action : x.action.toNat < outputs

/-- The error does not come from anything having been out of its range. -/
def TrainingError.InRange : TrainingError → Prop
  | .outsideDomain => False
  | .batchTooLarge .. => False
  | .environment cause => cause.Material
  | _ => True

/-- Approximators that keep their widths, with an answer to each input of its width, one score an
action. They may refuse to be fitted, as one does whose step counter is full. -/
structure Approximator.Serves (A : Approximator Q) (sound : Q → Prop) (inputs outputs : Nat) :
    Prop where
  inputDim : ∀ q, sound q → A.inputDim q = inputs
  outputDim : ∀ q, sound q → A.outputDim q = outputs
  predict : ∀ q input, sound q → input.length = inputs →
    ∃ scores, A.predict? q input = some scores ∧ scores.length = outputs
  fit : ∀ q batch clip loss q', sound q → (∀ x ∈ batch, x.Fits inputs outputs) →
    A.fit? q batch clip = some (loss, q') → sound q'
  setTraining : ∀ q training, sound q → sound (A.setTraining training q)

/-- The approximator makes no step, though there is something in range to fit it to. -/
def Approximator.Refuses (A : Approximator Q) (inputs outputs : Nat) (q : Q) : Prop :=
  ∃ batch clip, batch ≠ [] ∧ (∀ x ∈ batch, x.Fits inputs outputs) ∧ 0 < clip ∧
    A.fit? q batch clip = none

/-- Approximators that are the same except for what they answer out of range. -/
structure Approximator.Concurs (A B : Approximator Q) (inputs outputs : Nat) : Prop where
  inputDim : B.inputDim = A.inputDim
  outputDim : B.outputDim = A.outputDim
  setTraining : B.setTraining = A.setTraining
  isTraining : B.isTraining = A.isTraining
  predict : ∀ q input, input.length = inputs → B.predict? q input = A.predict? q input
  fit : ∀ q batch clip, (∀ x ∈ batch, x.Fits inputs outputs) →
    B.fit? q batch clip = A.fit? q batch clip

theorem Approximator.Serves.concurs {A : Approximator Q} {sound : Q → Prop} {inputs outputs : Nat}
    (_ : A.Serves sound inputs outputs) : A.Concurs A inputs outputs :=
  ⟨rfl, rfl, rfl, rfl, fun _ _ _ => rfl, fun _ _ _ _ => rfl⟩

/-! ## Runs that concur -/

/-- An end with an answer or an error as it should be, in a state as it should be. -/
def Within (I : S → Prop) (E : TrainingError → S → Prop) (P : α → Prop) :
    EStateM.Result TrainingError S α → Prop
  | .ok a s => P a ∧ I s
  | .error e s => E e s ∧ I s

/-- Two computations that come to the same from a state, which is as it should be. -/
structure Concur (I : S → Prop) (E : TrainingError → S → Prop) (P : α → Prop)
    (x y : EStateM TrainingError S α) (s : S) : Prop where
  same : y s = x s
  within : Within I E P (x s)

/-- No error comes of anything out of its range, whatever the state is. -/
abbrev OfRange (e : TrainingError) (_ : S) : Prop := e.InRange

section Concur

variable {I : S → Prop} {E E' : TrainingError → S → Prop} {P P' : α → Prop} {R : β → Prop} {s : S}
  {x y : EStateM TrainingError S α}

theorem concur_pure (hs : I s) {a : α} (ha : P a) :
    Concur I E P (pure a : EStateM TrainingError S α) (pure a) s := ⟨rfl, ha, hs⟩

theorem concur_throw (hs : I s) {e : TrainingError} (he : E e s) :
    Concur I E P (throw e : EStateM TrainingError S α) (throw e) s := ⟨rfl, he, hs⟩

theorem Concur.bind {f g : α → EStateM TrainingError S β} (first : Concur I E P x y s)
    (second : ∀ a s', P a → I s' → Concur I E R (f a) (g a) s') :
    Concur I E R (x >>= f) (y >>= g) s := by
  obtain ⟨same, within⟩ := first
  cases hx : x s with
  | error e s' =>
    rw [hx] at same within
    refine ⟨?_, ?_⟩
    · rw [EStateM.bind_of_error hx, EStateM.bind_of_error same]
    · rw [EStateM.bind_of_error hx]
      exact within
  | ok a s' =>
    rw [hx] at same within
    have next := second a s' within.1 within.2
    refine ⟨?_, ?_⟩
    · rw [EStateM.bind_of_ok hx, EStateM.bind_of_ok same, next.same]
    · rw [EStateM.bind_of_ok hx]
      exact next.within

theorem Concur.mono (h : Concur I E P x y s) (hE : ∀ e s', E e s' → E' e s')
    (hP : ∀ a s', x s = .ok a s' → P a → P' a) : Concur I E' P' x y s := by
  refine ⟨h.same, ?_⟩
  have within := h.within
  cases hx : x s with
  | error e s' =>
    rw [hx] at within
    exact ⟨hE e s' within.1, within.2⟩
  | ok a s' =>
    rw [hx] at within
    exact ⟨hP a s' hx within.1, within.2⟩

end Concur

/-! ## Selections -/

theorem sample_lt (c : Catalog) (r : Rng) : (c.sample r).1.toNat < c.size := by
  have hlt := Rng.below_lt c.size_pos r
  have hle : c.size ≤ maxActions := c.encodable
  simp only [Catalog.sample, UInt16.toNat_ofNat']
  unfold maxActions at hle
  rw [Nat.mod_eq_of_lt (by omega)]
  exact hlt

/-- An input of the right width has an action of the catalog selected for it. -/
theorem select_concurs {A B : Approximator Q} {sound : Q → Prop} {inputs : Nat} {catalog : Catalog}
    {q : Q} (hA : A.Serves sound inputs catalog.size) (hB : A.Concurs B inputs catalog.size)
    (hq : sound q) (x : Explorer) {input : List Float32} (hi : input.length = inputs) :
    @Explorer.select? Q B x q catalog input = @Explorer.select? Q A x q catalog input ∧
      ∃ action x', @Explorer.select? Q A x q catalog input = some (action, x') ∧
        action.toNat < catalog.size := by
  obtain ⟨scores, hscores, hlength⟩ := hA.predict q input hq hi
  have hsame := hB.predict q input hi
  simp only [Explorer.select?, hscores, hsame, true_and, Option.map_some]
  split
  · exact ⟨_, _, rfl, sample_lt _ _⟩
  · cases hbest : argmax scores with
    | none => exact ⟨_, _, rfl, sample_lt _ _⟩
    | some i =>
      have hlt : i < catalog.size := hlength ▸ argmax_lt hbest
      have hle : catalog.size ≤ maxActions := catalog.encodable
      refine ⟨_, _, rfl, ?_⟩
      unfold maxActions at hle
      rw [UInt16.toNat_ofNat', Nat.mod_eq_of_lt (by omega)]
      exact hlt

/-! ## Walks -/

/-- An episode of transitions between observations of a width, by actions of a catalog. -/
structure Episode.Fits (inputs outputs : Nat) (e : Episode) : Prop where
  transitions : ∀ x ∈ e.transitions, x.Fits inputs outputs
  actions : ∀ a ∈ e.actions, a.toNat < outputs

theorem fits_start (inputs outputs : Nat) (o : Observation) :
    (Episode.start o).Fits inputs outputs := ⟨nofun, nofun⟩

theorem Episode.Fits.record {outputs : Nat} {e : Episode} {o next : Observation}
    {action : ActionId} (he : e.Fits inputs outputs) (hat : e.At o) (ho : o.length = inputs)
    (hn : next.length = inputs) (ha : action.toNat < outputs) (reward : Float) :
    (e.record action reward next).Fits inputs outputs := by
  refine ⟨fun x hx => ?_, fun a ha' => ?_⟩
  · rw [hat.transitions_record, List.mem_append, List.mem_singleton] at hx
    rcases hx with hx | rfl
    · exact he.transitions x hx
    · exact ⟨ho, hn, ha⟩
  · rw [Episode.actions_record, List.mem_append, List.mem_singleton] at ha'
    rcases ha' with ha' | rfl
    · exact he.actions a ha'
    · exact ha

/-- The end of a walk or of a rollout, with an episode or an error as it should be. -/
def InBounds (inputs outputs : Nat) : Except TrainingError Episode → Prop
  | .ok e => e.Fits inputs outputs
  | .error e => e.InRange

/-- A rollout is somewhere as it should be: what it observed, selected and recorded is in range, and
so is its error, if it has one. -/
def Walk.Phase.Ranged (inputs outputs : Nat) : Phase → Prop
  | .arriving => True
  | .choosing _ o e => o.length = inputs ∧ e.At o ∧ e.Fits inputs outputs
  | .acting _ action e => action.toNat < outputs ∧ e.Fits inputs outputs ∧
      ∃ o, o.length = inputs ∧ e.At o
  | .leaving walked => InBounds inputs outputs walked
  | .gone result => InBounds inputs outputs result

/-- Nothing is asked of the bench that a walk is on. -/
def Anywhere (_ : Trail σ) : Prop := True

theorem attempt_concurs {work : Work σ α} (h : work.Fails EnvironmentError.Material)
    (t : Trail σ) :
    Concur Anywhere OfRange (fun _ => True) (Walk.attempt work) (Walk.attempt work) t := by
  refine ⟨rfl, ?_⟩
  unfold Walk.attempt
  cases hw : work t.bench with
  | ok a b => exact ⟨trivial, trivial⟩
  | error e b =>
    dsimp only
    split
    · exact ⟨trivial, trivial⟩
    · exact ⟨h _ _ _ hw, trivial⟩

theorem checkDim_concurs (o : Observation) (expected : Nat) (name : String) (t : Trail σ) :
    Concur Anywhere OfRange (fun _ => o.length = expected) (Walk.checkDim o expected name)
      (Walk.checkDim o expected name) t := by
  unfold Walk.checkDim
  split
  · exact concur_throw trivial trivial
  · rename_i h
    exact concur_pure trivial (not_not.1 h)

theorem program_concurs (t : Trail σ) :
    Concur Anywhere OfRange (fun _ => True) (Walk.program : Walk σ Program) Walk.program t :=
  ⟨rfl, trivial, trivial⟩

theorem observe_concurs (tc : Toolchain σ) (t : Trail σ) :
    Concur Anywhere OfRange (fun _ => True) (Walk.observe tc) (Walk.observe tc) t := by
  unfold Walk.observe
  refine (program_concurs t).bind fun p t _ _ => ?_
  cases p.state? with
  | some o => exact concur_pure trivial trivial
  | none =>
    refine (attempt_concurs (Program.fails_measure tc) t).bind fun ended t _ _ => ?_
    cases ended with
    | ok m => exact concur_pure trivial trivial
    | error _ => exact concur_pure trivial trivial

theorem leave_concurs {inputs outputs : Nat} (plan : Plan σ Q)
    {walked : Except TrainingError Episode}
    (h : InBounds inputs outputs walked) (t : Trail σ) :
    Concur Anywhere OfRange (Walk.Phase.Ranged inputs outputs) (Walk.leave plan walked)
      (Walk.leave plan walked) t := by
  have reset := (attempt_concurs (Program.fails_reset plan.tools) t).within
  refine ⟨rfl, ?_⟩
  unfold Walk.leave
  cases ha : Walk.attempt (Program.reset plan.tools) t with
  | ok _ t' => exact ⟨h, trivial⟩
  | error e t' =>
    rw [ha] at reset
    cases walked with
    | ok _ => exact ⟨reset.1, trivial⟩
    | error _ => exact ⟨h, trivial⟩

section Walks

variable {A B : Approximator Q} {sound : Q → Prop} {inputs : Nat} {plan : Plan σ Q}
  (hA : A.Serves sound inputs plan.catalog.size) (hB : A.Concurs B inputs plan.catalog.size)
  (hq : sound plan.online)

include hA hB hq

theorem choose_concurs (left : Nat) {o : Observation} {e : Episode} (ho : o.length = inputs)
    (hat : e.At o) (he : e.Fits inputs plan.catalog.size) (t : Trail σ) :
    Concur Anywhere OfRange (Walk.Phase.Ranged inputs plan.catalog.size)
      (@Walk.choose σ Q A plan left o e) (@Walk.choose σ Q B plan left o e) t := by
  obtain ⟨same, action, x', hx, hlt⟩ :=
    select_concurs hA hB hq t.explorer (o.inputs_length.trans ho)
  have select : Concur Anywhere OfRange (fun action => action.toNat < plan.catalog.size)
      (@Walk.select Q σ A plan.online plan.catalog o)
        (@Walk.select Q σ B plan.online plan.catalog o)
      t := by
    refine ⟨by simp only [Walk.select, same], ?_⟩
    simp only [Walk.select, hx]
    exact ⟨hlt, trivial⟩
  unfold Walk.choose
  exact select.bind fun action t ha _ => concur_pure trivial ⟨ha, he, o, ho, hat⟩

theorem act_concurs (left : Nat) {action : ActionId} {o : Observation} {e : Episode}
    (ha : action.toNat < plan.catalog.size) (ho : o.length = inputs) (hat : e.At o)
    (he : e.Fits inputs plan.catalog.size) (t : Trail σ) :
    Concur Anywhere OfRange (Walk.Phase.Ranged inputs plan.catalog.size)
      (@Walk.act σ Q A plan left action e) (@Walk.act σ Q B plan left action e) t := by
  unfold Walk.act
  refine (attempt_concurs (Program.fails_step plan.tools ha) t).bind fun ended t _ _ => ?_
  cases ended with
  | error _ => exact concur_pure trivial he
  | ok reward =>
    refine (program_concurs t).bind fun p t _ _ => ?_
    cases p.state? with
    | none => exact concur_pure trivial he
    | some next =>
      simp only [hB.inputDim, hA.inputDim _ hq]
      refine (checkDim_concurs next inputs p.name t).bind fun _ t hn _ => ?_
      exact concur_pure trivial ⟨hn, hat.record _ _ _, he.record hat ho hn ha reward⟩

theorem arrive_concurs (t : Trail σ) :
    Concur Anywhere OfRange (Walk.Phase.Ranged inputs plan.catalog.size)
      (@Walk.arrive σ Q A plan) (@Walk.arrive σ Q B plan) t := by
  unfold Walk.arrive
  refine (observe_concurs plan.tools t).bind fun observed t _ _ => ?_
  cases observed with
  | none => exact concur_pure trivial (fits_start _ _ _)
  | some o =>
    refine (program_concurs t).bind fun p t _ _ => ?_
    simp only [hB.inputDim, hA.inputDim _ hq]
    refine (checkDim_concurs o inputs p.name t).bind fun _ t ho _ => ?_
    exact concur_pure trivial ⟨ho, Episode.at_start o, fits_start _ _ _⟩

/-- The next call of a rollout stays in range. -/
theorem onward_concurs {phase : Walk.Phase} (h : phase.Ranged inputs plan.catalog.size)
    (t : Trail σ) :
    Concur Anywhere OfRange (Walk.Phase.Ranged inputs plan.catalog.size)
      (@Walk.onward σ Q A plan phase) (@Walk.onward σ Q B plan phase) t := by
  match phase with
  | .arriving => exact arrive_concurs hA hB hq t
  | .choosing 0 o e => exact concur_pure trivial h.2.2
  | .choosing (left + 1) o e => exact choose_concurs hA hB hq left h.1 h.2.1 h.2.2 t
  | .acting left action e =>
    obtain ⟨ha, he, o, ho, hat⟩ := h
    exact act_concurs hA hB hq left ha ho hat he t
  | .leaving walked => exact leave_concurs plan h t
  | .gone result => exact concur_pure trivial h

/-- So does a turn. -/
theorem turn_concurs {phase : Walk.Phase} (h : phase.Ranged inputs plan.catalog.size)
    (t : Trail σ) :
    @Walk.turn σ Q B plan (phase, t) = @Walk.turn σ Q A plan (phase, t) ∧
      (@Walk.turn σ Q A plan (phase, t)).1.Ranged inputs plan.catalog.size := by
  obtain ⟨same, within⟩ := onward_concurs hA hB hq h t
  refine ⟨by simp only [Walk.turn, same], ?_⟩
  cases hnext : @Walk.onward σ Q A plan phase t with
  | ok next t' =>
    rw [hnext] at within
    rw [@Walk.turn_of_ok σ Q A plan _ _ _ _ hnext]
    exact within.1
  | error e t' =>
    rw [hnext] at within
    rw [@Walk.turn_of_error σ Q A plan _ _ _ _ hnext]
    exact within.1

/-- What is left of a walk stays in range. -/
theorem rest_concurs {phase : Walk.Phase} (h : phase.Ranged inputs plan.catalog.size)
    (t : Trail σ) :
    Concur Anywhere OfRange (Episode.Fits inputs plan.catalog.size) (@Walk.rest σ Q A plan phase)
      (@Walk.rest σ Q B plan phase) t := by
  -- the end is nearer after each call
  induction hn : phase.left plan.maxSteps using Nat.strongRecOn generalizing phase t with
  | ind n ih =>
    by_cases hend : phase.result? = none ∧ ∀ walked, phase ≠ .leaving walked
    · rw [@Walk.rest_eq σ Q A plan _ hend.1 hend.2, @Walk.rest_eq σ Q B plan _ hend.1 hend.2]
      have next : Concur Anywhere OfRange
          (fun next => next.Ranged inputs plan.catalog.size ∧ next.left plan.maxSteps < n)
          (@Walk.onward σ Q A plan phase) (@Walk.onward σ Q B plan phase) t :=
        (onward_concurs hA hB hq h t).mono (fun _ _ he => he) fun next t' hnext hranged =>
          ⟨hranged, hn ▸ (@Walk.answers_onward σ Q A plan phase hend.1 t next t' hnext).nearer⟩
      exact next.bind fun next t' hnext _ => ih _ hnext.2 hnext.1 t' rfl
    · match phase with
      | .leaving (.ok e) => exact concur_pure trivial h
      | .leaving (.error e) => exact concur_throw trivial h
      | .gone (.ok e) => exact concur_pure trivial h
      | .gone (.error e) => exact concur_throw trivial h
      | .arriving => exact absurd ⟨rfl, nofun⟩ hend
      | .choosing _ _ _ => exact absurd ⟨rfl, nofun⟩ hend
      | .acting _ _ _ => exact absurd ⟨rfl, nofun⟩ hend

/-- A rollout stays in range, however the walk and the reset after it end. -/
theorem rollout_concurs (t : Trail σ) :
    Concur Anywhere OfRange (fun r => r.episode.Fits inputs plan.catalog.size)
      (@Walk.rollout Q σ A plan.tools plan.catalog plan.online plan.maxSteps)
      (@Walk.rollout Q σ B plan.tools plan.catalog plan.online plan.maxSteps) t := by
  have run : Concur Anywhere OfRange (Episode.Fits inputs plan.catalog.size)
      (@Walk.run Q σ A plan.tools plan.catalog plan.online plan.maxSteps)
      (@Walk.run Q σ B plan.tools plan.catalog plan.online plan.maxSteps) t :=
    have arriving : Walk.Phase.arriving.Ranged inputs plan.catalog.size := trivial
    rest_concurs hA hB hq arriving t
  obtain ⟨same, within⟩ := run
  have reset (t : Trail σ) : Within Anywhere OfRange (fun _ => True)
      (Walk.attempt (Program.reset plan.tools) t) :=
    (attempt_concurs (Program.fails_reset plan.tools) t).within
  refine ⟨by simp only [Walk.rollout, same], ?_⟩
  unfold Walk.rollout
  cases hrun : @Walk.run Q σ A plan.tools plan.catalog plan.online plan.maxSteps t with
  | ok episode t₁ =>
    rw [hrun] at within
    dsimp only
    have hreset := reset t₁
    cases ha : Walk.attempt (Program.reset plan.tools) t₁ with
    | ok _ t₂ => exact ⟨within.1, trivial⟩
    | error e t₂ => rwa [ha] at hreset
  | error e t₁ =>
    rw [hrun] at within
    dsimp only
    cases Walk.attempt (Program.reset plan.tools) t₁ with
    | ok _ t₂ => exact within
    | error _ t₂ => exact within

/-! ## Rounds -/

theorem stable_ranged :
    @Walk.Stable σ Q A plan fun phase _ => phase.Ranged inputs plan.catalog.size :=
  fun _ t _ h => (turn_concurs hA hB hq h t).2

/-- Workers that are in range take the same turns, and stay in range. -/
theorem run_concurs {r : Training.Round σ}
    (h : ∀ w ∈ r.workers, w.Satisfies fun phase _ => phase.Ranged inputs plan.catalog.size)
    (turns : List Nat) :
    @Training.Round.run σ Q B plan r turns = @Training.Round.run σ Q A plan r turns ∧
      ∀ w ∈ (@Training.Round.run σ Q A plan r turns).workers,
        w.Satisfies fun phase _ => phase.Ranged inputs plan.catalog.size := by
  have keeps {r : Training.Round σ}
      (h : ∀ w ∈ r.workers, w.Satisfies fun phase _ => phase.Ranged inputs plan.catalog.size)
      (turns : List Nat) :=
        @Training.Round.satisfies_run σ Q A plan r _ (stable_ranged hA hB hq) h turns
  refine ⟨?_, keeps h turns⟩
  induction turns generalizing r with
  | nil => rfl
  | cons i turns ih =>
    have hturn : @Training.Round.turn σ Q B plan r i = @Training.Round.turn σ Q A plan r i := by
      unfold Training.Round.turn
      cases hw : r.workers[i]? with
      | none => rfl
      | some w =>
        dsimp only
        cases ht : w.task with
        | ended result => rfl
        | rolling phase =>
          have hphase := h w (List.mem_of_getElem? hw)
          rw [Training.Worker.Satisfies, ht] at hphase
          dsimp only
          rw [(turn_concurs hA hB hq hphase (w.trail r.schedule)).1]
    rw [Training.Round.run, List.foldl_cons, hturn]
    exact ih (keeps h [i])

end Walks

end PassTuner
