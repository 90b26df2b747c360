import PassTuner.Proofs.Network.Positions
import PassTuner.Proofs.Number.Signs
import PassTuner.Proofs.Training.Ranges

/-!
# Errands that stay in range

From rollouts that stay in range there are only transitions between observations of a width, by
actions of a catalog, and so a batch has nothing else for the approximator to be fitted to. It may
make no step even so, as a network does whose counter is full. Main statement: that is the only way
in which anything that a trainer is asked for leaves a range.
-/

namespace PassTuner

variable {σ Q α β : Type}

/-! ## Gradient steps -/

/-- A trainer whose approximators, settings and transitions fit one another and its catalog. -/
structure Trainer.Fits (sound : Q → Prop) (inputs : Nat) (catalog : Catalog) (t : Trainer Q) :
    Prop where
  online : sound t.online
  target : sound t.target
  valid : t.settings.Valid
  capacity : t.buffer.capacity = t.settings.bufferCapacity
  programs : 0 < t.programs.length
  entries : ∀ x ∈ t.buffer.entries, x.Fits inputs catalog.size
  catalog : t.catalog = catalog

/-- A gradient step leaves a trainer that fits, or fails because the approximator makes none. -/
def Trainer.Steps (A : Approximator Q) (sound : Q → Prop) (inputs : Nat) (catalog : Catalog)
    (t : Trainer Q) : Except TrainingError (α × Trainer Q) → Prop
  | .ok (_, t') => t'.Fits sound inputs catalog
  | .error e => e = .outsideDomain ∧ A.Refuses inputs catalog.size t.online

theorem mapM_concurs {f g : α → Option β} {P : β → Prop} {xs : List α}
    (h : ∀ x ∈ xs, g x = f x ∧ ∃ y, f x = some y ∧ P y) :
    xs.mapM g = xs.mapM f ∧
      ∃ ys, xs.mapM f = some ys ∧ ys.length = xs.length ∧ ∀ y ∈ ys, P y := by
  induction xs with
  | nil => exact ⟨rfl, [], rfl, rfl, nofun⟩
  | cons x xs ih =>
    obtain ⟨same, y, hy, hP⟩ := h x (by simp)
    obtain ⟨sames, ys, hys, hlength, hPs⟩ := ih fun x hx => h x (by simp [hx])
    refine ⟨by simp only [List.mapM_cons, same, sames], y :: ys, ?_, by simp [hlength], ?_⟩
    · simp only [List.mapM_cons, hy, hys]
      rfl
    · simpa using ⟨hP, hPs⟩

section Steps

variable {A B : Approximator Q} {sound : Q → Prop} {inputs : Nat} {catalog : Catalog} {q : Q}
  {t : Trainer Q} (hA : A.Serves sound inputs catalog.size) (hB : A.Concurs B inputs catalog.size)

include hA hB

theorem fitSample_concurs (hq : sound q) (gamma : Float32) {x : Transition}
    (hx : x.Fits inputs catalog.size) :
    @Trainer.fitSample? Q B q gamma x = @Trainer.fitSample? Q A q gamma x ∧
      ∃ y, @Trainer.fitSample? Q A q gamma x = some y ∧ y.Fits inputs catalog.size := by
  have hnext : x.next.inputs.length = inputs := x.next.inputs_length.trans hx.next
  obtain ⟨scores, hscores, _⟩ := hA.predict q x.next.inputs hq hnext
  refine ⟨by simp only [Trainer.fitSample?, hB.predict q _ hnext], ?_⟩
  simp only [Trainer.fitSample?, hscores, Option.map_some]
  exact ⟨_, rfl, x.state.inputs_length.trans hx.state, hx.action⟩

theorem fitted_concurs (ht : t.Fits sound inputs catalog) {batch : List Transition}
    (hne : batch ≠ []) (hbatch : ∀ x ∈ batch, x.Fits inputs catalog.size) :
    @Trainer.fitted Q B t batch = @Trainer.fitted Q A t batch ∧
      t.Steps A sound inputs catalog (@Trainer.fitted Q A t batch) := by
  obtain ⟨same, samples, hsamples, hlength, hfits⟩ := mapM_concurs fun x hx =>
    fitSample_concurs hA hB ht.target t.settings.gamma.toFloat32 (hbatch x hx)
  have hsne : samples ≠ [] := by
    rintro rfl
    exact hne (List.length_eq_zero_iff.1 hlength.symm)
  have hsame := hB.fit t.online samples t.settings.gradClip hfits
  simp only [Trainer.fitted, same, hsamples, hsame, true_and]
  cases hfit : A.fit? t.online samples t.settings.gradClip with
  | none => exact ⟨rfl, samples, t.settings.gradClip, hsne, hfits, ht.valid.gradClip, hfit⟩
  | some made =>
    have hsound := hA.fit t.online samples t.settings.gradClip made.1 made.2 ht.online hfits hfit
    dsimp only [Trainer.Steps]
    split
    · exact { ht with online := hsound, target := hsound }
    · exact { ht with online := hsound }

theorem learned_concurs (ht : t.Fits sound inputs catalog) :
    @Trainer.learned Q B t = @Trainer.learned Q A t ∧
      t.Steps A sound inputs catalog (@Trainer.learned Q A t) := by
  simp only [Trainer.learned]
  split
  · exact ⟨rfl, ht⟩
  have room : t.settings.batchSize < t.buffer.capacity := ht.capacity ▸ ht.valid.room
  obtain ⟨batch, buffer, rng, hsample, hbatch, hkept, hcapacity⟩ := Replay.sample_ok room t.rng
  have ht' : ({ t with buffer, rng } : Trainer Q).Fits sound inputs catalog :=
    { ht with
      capacity := hcapacity.trans ht.capacity
      entries := fun x hx => ht.entries x (hkept.subset hx) }
  simp only [hsample]
  split
  · exact ⟨rfl, ht'⟩
  · rename_i hne
    obtain ⟨same, steps⟩ := fitted_concurs hA hB ht' (by simpa using hne)
      fun x hx => ht.entries x (hbatch hx)
    rw [same]
    refine ⟨rfl, ?_⟩
    cases hfitted : @Trainer.fitted Q A { t with buffer, rng } batch with
    | ok made =>
      rw [hfitted] at steps
      exact steps
    | error e =>
      rw [hfitted] at steps
      exact steps

end Steps

/-! ## Errands -/

open Training

/-- A lab whose trainer fits. -/
abbrev Fit (sound : Q → Prop) (inputs : Nat) (catalog : Catalog) (l : Lab σ Q) : Prop :=
  l.trainer.Fits sound inputs catalog

/-- The error is in range, or it is that of a gradient step which the approximator does not make. -/
def Excused (A : Approximator Q) (inputs outputs : Nat) (e : TrainingError) (l : Lab σ Q) : Prop :=
  e.InRange ∨ e = .outsideDomain ∧ @Training.learn Q σ A l = .error e l ∧
    A.Refuses inputs outputs l.trainer.online

/-- How the episodes of a round ended, each as it should. -/
def Ended (results : List (Except TrainingError Unit)) : Prop :=
  ∀ e, .error e ∈ results → e.InRange

section Calls

variable {sound : Q → Prop} {inputs : Nat} {catalog : Catalog} {E : TrainingError → Lab σ Q → Prop}
  {l : Lab σ Q} {t : Trainer Q}

/-- What goes on from the trainer of a lab. -/
theorem Concur.reading {J : Lab σ Q → Prop} {P : α → Prop} {f g : Trainer Q → Training σ Q α}
    (h : Concur J E P (f l.trainer) (g l.trainer) l) :
    Concur J E P (trainer >>= f) (trainer >>= g) l := ⟨h.same, h.within⟩

theorem modifyTrainer_concurs {f : Trainer Q → Trainer Q} (hl : Fit sound inputs catalog l)
    (hf : ∀ t, t.Fits sound inputs catalog → (f t).Fits sound inputs catalog) :
    Concur (Fit sound inputs catalog) E (fun _ => True) (modifyTrainer f : Training σ Q Unit)
      (modifyTrainer f) l := ⟨rfl, trivial, hf _ hl⟩

theorem pick_concurs (hl : Fit sound inputs catalog l) :
    Concur (Fit sound inputs catalog) E (fun _ => True)
      (ofTrainer Trainer.pick : Training σ Q Nat) (ofTrainer Trainer.pick) l := by
  refine ⟨rfl, ?_⟩
  simp only [ofTrainer, Trainer.pick, dif_pos hl.programs]
  exact ⟨trivial, { hl with }⟩

theorem pickSome_concurs {workers : Nat} (hw : workers ≤ l.trainer.programs.length)
    (hl : Fit sound inputs catalog l) :
    Concur (Fit sound inputs catalog) E (fun _ => True)
      (ofTrainer (Trainer.pickSome workers) : Training σ Q (List (Nat × UInt64)))
      (ofTrainer (Trainer.pickSome workers)) l := by
  refine ⟨rfl, ?_⟩
  simp only [ofTrainer, Trainer.pickSome, dif_pos hw]
  exact ⟨trivial, { hl with }⟩

theorem fits_setProgram (ht : t.Fits sound inputs catalog) (role : Role) (i : Nat) (p : Program)
    (e : Exploration) :
    ({ setProgram t role i p with schedule := e } : Trainer Q).Fits sound inputs catalog := by
  cases role with
  | trained => exact { ht with programs := by simpa [setProgram] using ht.programs }
  | heldOut => exact { ht with }

theorem fits_push (ht : t.Fits sound inputs catalog) {e : Episode}
    (he : e.Fits inputs catalog.size) (r rng : Rng) :
    ({ t with buffer := (t.buffer.push e r).1, rng } : Trainer Q).Fits sound inputs catalog := by
  refine { ht with
    capacity := (Replay.capacity_push t.buffer e r).trans ht.capacity
    entries := fun x hx => ?_ }
  rcases List.mem_append.1 ((Replay.subperm_push t.buffer e r).subset hx) with hx | hx
  · exact ht.entries x hx
  · exact he.transitions x hx

theorem describeAll_ok {actions : List ActionId} (h : ∀ a ∈ actions, a.toNat < catalog.size) :
    ∃ flags, catalog.describeAll actions = .ok flags := by
  unfold Catalog.describeAll
  induction actions with
  | nil => exact ⟨[], rfl⟩
  | cons a rest ih =>
    obtain ⟨flags, hflags⟩ := ih fun a ha => h a (by simp [ha])
    have hlt : a.toNat < catalog.flags.length := h a (by simp)
    have hflag : catalog.describe a = .ok catalog.flags[a.toNat] := by
      simp only [Catalog.describe, List.getElem?_eq_getElem hlt]
    refine ⟨catalog.flags[a.toNat] :: flags, ?_⟩
    simp only [List.mapM_cons, hflag, hflags]
    rfl

/-- What a rollout came to, as it should be. -/
def Walked (inputs : Nat) (catalog : Catalog) : Except TrainingError Rollout → Prop
  | .ok r => r.episode.Fits inputs catalog.size
  | .error e => e.InRange

variable {A B : Approximator Q} (tc : Toolchain σ) (hA : A.Serves sound inputs catalog.size)
  (hB : A.Concurs B inputs catalog.size) (hl : Fit sound inputs catalog l)

include hA in
theorem fits_setTraining (ht : t.Fits sound inputs catalog) (training : Bool)
    (schedule : Exploration) :
    ({ t with schedule, online := A.setTraining training t.online } : Trainer Q).Fits sound inputs
      catalog :=
  { ht with online := hA.setTraining _ _ ht.online }

include hA hB

theorem rollouts_concur (role : Role) (i : Nat) (rng : Rng) (hl : Fit sound inputs catalog l) :
    Concur (Fit sound inputs catalog) OfRange (fun r => Walked inputs catalog r.1)
      (@Training.rollout Q σ A tc role i rng) (@Training.rollout Q σ B tc role i rng) l := by
  cases hp : (programsOf l.trainer role)[i]? with
  | none =>
    refine ⟨?_, ?_⟩
    · simp only [Training.rollout, hp]
    · simp only [Training.rollout, hp]
      exact ⟨trivial, hl⟩
  | some p =>
    have hcatalog : l.trainer.catalog = catalog := hl.catalog
    obtain ⟨same, within⟩ :=
      @rollout_concurs σ Q A B sound inputs
        ⟨tc, catalog, l.trainer.online, l.trainer.settings.maxSteps⟩
        hA hB hl.online ⟨⟨l.world, p⟩, ⟨l.trainer.schedule, rng⟩⟩
    refine ⟨?_, ?_⟩
    · simp only [Training.rollout, hp, hcatalog, same]
    · simp only [Training.rollout, hp, hcatalog]
      cases hr : @Walk.rollout Q σ A tc catalog l.trainer.online l.trainer.settings.maxSteps
          ⟨⟨l.world, p⟩, ⟨l.trainer.schedule, rng⟩⟩ with
      | ok r trail =>
        rw [hr] at within
        exact ⟨within.1, fits_setProgram hl role i _ _⟩
      | error e trail =>
        rw [hr] at within
        exact ⟨within.1, fits_setProgram hl role i _ _⟩

theorem rolloutNext_concurs (role : Role) (i : Nat) (hl : Fit sound inputs catalog l) :
    Concur (Fit sound inputs catalog) OfRange (fun r => r.episode.Fits inputs catalog.size)
      (@Training.rolloutNext Q σ A tc role i) (@Training.rolloutNext Q σ B tc role i) l := by
  unfold Training.rolloutNext
  refine .reading ?_
  refine (rollouts_concur tc hA hB role i l.trainer.rng hl).bind fun rolled l hrolled hl => ?_
  refine (modifyTrainer_concurs hl fun t ht => ?_).bind fun _ l _ hl => ?_
  · exact { ht with }
  · obtain ⟨result, rng⟩ := rolled
    cases result with
    | ok r => exact concur_pure hl hrolled
    | error e => exact concur_throw hl hrolled

theorem evaluateFrom_concurs (n i : Nat) (hl : Fit sound inputs catalog l) :
    Concur (Fit sound inputs catalog) OfRange (fun _ => True) (@Training.evaluateFrom Q σ A tc n i)
      (@Training.evaluateFrom Q σ B tc n i) l := by
  induction n generalizing i l with
  | zero => exact concur_pure hl trivial
  | succ n ih =>
    unfold Training.evaluateFrom
    refine .reading ?_
    cases l.trainer.holdout[i]? with
    | none => exact concur_pure hl trivial
    | some p =>
      refine (rolloutNext_concurs tc hA hB .heldOut i hl).bind fun r l hr hl => ?_
      refine .reading ?_
      have hcatalog : l.trainer.catalog = catalog := hl.catalog
      obtain ⟨flags, hflags⟩ := describeAll_ok hr.actions
      simp only [resultOf, hcatalog, hflags]
      exact (ih (i + 1) hl).bind fun _ l _ hl => concur_pure hl trivial

theorem evaluate_concurs (hl : Fit sound inputs catalog l) :
    Concur (Fit sound inputs catalog) OfRange (fun _ => True) (@Training.evaluate Q σ A tc)
      (@Training.evaluate Q σ B tc) l := by
  have hgreedy : Fit sound inputs catalog { l with trainer := @greedily Q A l.trainer } :=
    fits_setTraining hA hl _ _
  have heldOut : Concur (Fit sound inputs catalog) OfRange (fun _ => True)
      (@Training.evaluateHoldout Q σ A tc) (@Training.evaluateHoldout Q σ B tc)
      { l with trainer := @greedily Q A l.trainer } := by
    unfold Training.evaluateHoldout
    refine .reading ?_
    exact (evaluateFrom_concurs tc hA hB _ 0 hgreedy).bind fun _ l _ hl => concur_pure hl trivial
  obtain ⟨same, within⟩ := heldOut
  refine ⟨?_, ?_⟩
  · unfold Training.evaluate
    simp only [greedily, restored, hB.setTraining, hB.isTraining] at same ⊢
    rw [same]
  · unfold Training.evaluate
    cases he : @Training.evaluateHoldout Q σ A tc { l with trainer := @greedily Q A l.trainer } with
    | ok e after =>
      rw [he] at within
      exact ⟨trivial, fits_setTraining hA within.2 _ _⟩
    | error e after =>
      rw [he] at within
      exact ⟨within.1, fits_setTraining hA within.2 _ _⟩

theorem learn_concurs (hl : Fit sound inputs catalog l) :
    Concur (Fit sound inputs catalog) (Excused A inputs catalog.size) (fun _ => True)
      (@Training.learn Q σ A) (@Training.learn Q σ B) l := by
  obtain ⟨same, steps⟩ := learned_concurs hA hB hl
  refine ⟨by simp only [Training.learn, ofTrainer, same], ?_⟩
  cases hlearned : @Trainer.learned Q A l.trainer with
  | ok made =>
    rw [hlearned] at steps
    simp only [Training.learn, ofTrainer, hlearned]
    exact ⟨trivial, steps⟩
  | error e =>
    rw [hlearned] at steps
    have hfails : @Training.learn Q σ A l = .error e l := by
      simp only [Training.learn, ofTrainer, hlearned]
    rw [hfails]
    exact ⟨.inr ⟨steps.1, hfails, steps.2⟩, hl⟩

theorem finishEpisode_concurs (hl : Fit sound inputs catalog l) :
    Concur (Fit sound inputs catalog) (Excused A inputs catalog.size) (fun _ => True)
      (@Training.finishEpisode Q σ A tc) (@Training.finishEpisode Q σ B tc) l := by
  have evaluating {l : Lab σ Q} (hl : Fit sound inputs catalog l) :
      Concur (Fit sound inputs catalog) (Excused A inputs catalog.size) (fun _ => True)
        (@Training.evaluate Q σ A tc >>= fun evaluation =>
          modifyTrainer fun t => { t with evaluations := t.evaluations ++ [evaluation] })
        (@Training.evaluate Q σ B tc >>= fun evaluation =>
          modifyTrainer fun t => { t with evaluations := t.evaluations ++ [evaluation] }) l :=
    ((evaluate_concurs tc hA hB hl).mono (fun _ _ => .inl) fun _ _ _ => id).bind fun _ l _ hl =>
      modifyTrainer_concurs hl fun t ht => { ht with }
  have ending {l : Lab σ Q} (hl : Fit sound inputs catalog l) :
      Concur (Fit sound inputs catalog) (Excused A inputs catalog.size) (fun _ => True)
        (trainer >>= fun t =>
          if !t.holdout.isEmpty && t.episodes % t.settings.evalInterval = 0 then
            @Training.evaluate Q σ A tc >>= fun evaluation =>
              modifyTrainer fun t => { t with evaluations := t.evaluations ++ [evaluation] }
          else pure ())
        (trainer >>= fun t =>
          if !t.holdout.isEmpty && t.episodes % t.settings.evalInterval = 0 then
            @Training.evaluate Q σ B tc >>= fun evaluation =>
              modifyTrainer fun t => { t with evaluations := t.evaluations ++ [evaluation] }
          else pure ()) l := by
    refine .reading ?_
    split
    · exact evaluating hl
    · exact concur_pure hl trivial
  unfold Training.finishEpisode
  refine (modifyTrainer_concurs hl fun t ht => ?_).bind fun _ l _ hl => ?_
  · exact { ht with }
  refine .reading ?_
  dsimp only
  split
  · exact (learn_concurs hA hB hl).bind fun _ l _ hl => ending hl
  · exact ending hl

theorem runEpisode_concurs (hl : Fit sound inputs catalog l) :
    Concur (Fit sound inputs catalog) (Excused A inputs catalog.size) (fun _ => True)
      (@Training.runEpisode Q σ A tc) (@Training.runEpisode Q σ B tc) l := by
  unfold Training.runEpisode
  refine (pick_concurs hl).bind fun i l _ hl => ?_
  refine ((rolloutNext_concurs tc hA hB .trained i hl).mono (fun _ _ => .inl) fun _ _ _ => id).bind
    fun r l hr hl => ?_
  refine (modifyTrainer_concurs hl fun t ht => fits_push ht hr _ _).bind fun _ l _ hl => ?_
  exact (finishEpisode_concurs tc hA hB hl).bind fun _ l _ hl => concur_pure hl trivial

theorem finishJobs_concurs {results : List (Except TrainingError Unit)} (hr : Ended results)
    (hl : Fit sound inputs catalog l) :
    Concur (Fit sound inputs catalog) (Excused A inputs catalog.size) (fun _ => True)
      (@Training.finishJobs Q σ A tc results) (@Training.finishJobs Q σ B tc results) l := by
  induction results generalizing l with
  | nil => exact concur_pure hl trivial
  | cons result rest ih =>
    cases result with
    | error e => exact concur_throw hl (.inl (hr e (by simp)))
    | ok _ =>
      unfold Training.finishJobs
      refine (finishEpisode_concurs tc hA hB hl).bind fun _ l _ hl => ?_
      exact ih (fun e he => hr e (by simp [he])) hl

/-- Workers that take turns stay in range, in whatever order. -/
theorem round_concurs (rota : Rota σ Q) (jobs : List (Nat × UInt64))
    (hl : Fit sound inputs catalog l) :
    @Rota.round σ Q B rota tc jobs l = @Rota.round σ Q A rota tc jobs l ∧
      ∀ w ∈ (@Rota.round σ Q A rota tc jobs l).workers,
        w.Satisfies fun phase _ => phase.Ranged inputs catalog.size := by
  obtain ⟨⟩ := hl.catalog
  exact run_concurs hA hB hl.online
    (Round.satisfies_start (fun _ _ _ => trivial) _ jobs) _

/-- So the round leaves a trainer that fits, and answers that are as they should be. -/
theorem crew_concurs (rota : Rota σ Q) (jobs : List (Nat × UInt64))
    (hl : Fit sound inputs catalog l) :
    Concur (Fit sound inputs catalog) E Ended (@Rota.crew σ Q A rota tc jobs)
      (@Rota.crew σ Q B rota tc jobs) l := by
  obtain ⟨same, ranged⟩ := round_concurs tc hA hB rota jobs hl
  have logged := @Rota.logged σ Q A rota tc jobs l
  refine ⟨by simp only [Rota.crew, Rota.trainer, same], fun e he => ?_, ?_⟩
  · obtain ⟨result, hresult, herror⟩ := List.mem_map.1 he
    obtain ⟨w, hw, hover⟩ := Round.mem_answers hresult
    have hranged := ranged w hw
    cases result with
    | ok _ => cases herror
    | error e' =>
      cases herror
      rwa [Worker.Satisfies, hover] at hranged
  · refine { hl with capacity := ?_, programs := ?_, entries := fun x hx => ?_ }
    · show (@Rota.round σ Q A rota tc jobs l).buffer.capacity = _
      rw [logged.buffer, Round.capacity_foldl_apply]
      exact hl.capacity
    · show 0 < (Round.putBack _ _).length
      rw [Round.length_putBack]
      exact hl.programs
    · rcases List.mem_append.1 (logged.subperm_entries.subset hx) with hx | hx
      · exact hl.entries x hx
      · obtain ⟨w, hw, hx⟩ := List.mem_flatMap.1 hx
        obtain ⟨e, he, hx⟩ := List.mem_flatMap.1 hx
        have hranged := ranged w hw
        cases ht : w.task with
        | rolling _ => simp [Worker.gathered?, ht] at he
        | ended result =>
          cases result with
          | error _ => simp [Worker.gathered?, ht] at he
          | ok e' =>
            rw [Worker.Satisfies, ht] at hranged
            simp only [Worker.gathered?, ht, Option.toList_some, List.mem_singleton] at he
            rw [he] at hx
            exact hranged.transitions x hx

theorem runRoundBy_concurs (rota : Rota σ Q) {workers : Nat}
    (hw : workers ≤ l.trainer.programs.length) (hl : Fit sound inputs catalog l) :
    Concur (Fit sound inputs catalog) (Excused A inputs catalog.size) (fun _ => True)
      (@Training.runRoundBy σ Q A tc (@Rota.crew σ Q A rota tc) workers)
      (@Training.runRoundBy σ Q B tc (@Rota.crew σ Q B rota tc) workers) l := by
  unfold Training.runRoundBy
  refine (pickSome_concurs hw hl).bind fun jobs l _ hl => ?_
  refine (crew_concurs tc hA hB rota jobs hl).bind fun results l hresults hl => ?_
  exact finishJobs_concurs tc hA hB hresults hl

theorem trainForBy_concurs (rota : Rota σ Q) (turns : Nat) (hl : Fit sound inputs catalog l) :
    Concur (Fit sound inputs catalog) (Excused A inputs catalog.size) (fun _ => True)
      (@Training.trainForBy σ Q A tc (@Rota.crew σ Q A rota tc) turns)
      (@Training.trainForBy σ Q B tc (@Rota.crew σ Q B rota tc) turns) l := by
  induction turns generalizing l with
  | zero => exact concur_pure hl trivial
  | succ turns ih =>
    unfold Training.trainForBy
    refine .reading ?_
    split
    · dsimp only
      split
      · refine (runRoundBy_concurs tc hA hB rota ?_ hl).bind fun _ l _ hl => ih hl
        exact Nat.le_trans (Nat.min_le_left _ _) (Nat.min_le_right _ _)
      · exact (runEpisode_concurs tc hA hB hl).bind fun _ l _ hl => ih hl
    · exact concur_pure hl trivial

theorem trainBy_concurs (rota : Rota σ Q) (hl : Fit sound inputs catalog l) :
    Concur (Fit sound inputs catalog) (Excused A inputs catalog.size) (fun _ => True)
      (@Training.trainBy σ Q A tc (@Rota.crew σ Q A rota tc))
      (@Training.trainBy σ Q B tc (@Rota.crew σ Q B rota tc)) l := by
  unfold Training.trainBy
  refine .reading ?_
  refine (trainForBy_concurs tc hA hB rota _ hl).bind fun _ l _ hl => ?_
  exact .reading (concur_pure hl trivial)

/-- Every errand stays in range, whichever it is. -/
theorem errand_concurs (errand : Errand σ Q) (hl : Fit sound inputs catalog l) :
    Concur (Fit sound inputs catalog) (Excused A inputs catalog.size) (fun _ => True)
      (@Errand.run σ Q A errand) (@Errand.run σ Q B errand) l := by
  cases errand with
  | episode tc => exact (runEpisode_concurs tc hA hB hl).bind fun _ l _ hl => concur_pure hl trivial
  | training tc rota =>
    exact (trainBy_concurs tc hA hB rota hl).bind fun _ l _ hl => concur_pure hl trivial
  | learning => exact (learn_concurs hA hB hl).bind fun _ l _ hl => concur_pure hl trivial
  | evaluation tc =>
    exact ((evaluate_concurs tc hA hB hl).mono (fun _ _ => .inl) fun _ _ _ => id).bind
      fun _ l _ hl => concur_pure hl trivial
  | syncing => exact modifyTrainer_concurs hl fun t ht => { ht with target := ht.online }

/-- So do errands in turn. -/
theorem sent_concurs (ht : t.Fits sound inputs catalog) (errands : List (World σ × Errand σ Q)) :
    @sent σ Q B t errands = @sent σ Q A t errands ∧
      (@sent σ Q A t errands).Fits sound inputs catalog := by
  induction errands generalizing t with
  | nil => exact ⟨rfl, ht⟩
  | cons first rest ih =>
    obtain ⟨same, within⟩ := errand_concurs hA hB first.2 (l := ⟨first.1, t⟩) ht
    have hafter : after (@Errand.run σ Q B first.2) ⟨first.1, t⟩ =
        after (@Errand.run σ Q A first.2) ⟨first.1, t⟩ := by simp only [after, same]
    have hfits : (after (@Errand.run σ Q A first.2) ⟨first.1, t⟩).trainer.Fits sound inputs
        catalog := by
      unfold after
      cases hrun : @Errand.run σ Q A first.2 ⟨first.1, t⟩ with
      | ok _ l' => rw [hrun] at within; exact within.2
      | error _ l' => rw [hrun] at within; exact within.2
    obtain ⟨hsame, hrest⟩ := ih hfits
    refine ⟨?_, hrest⟩
    show @sent σ Q B (after (@Errand.run σ Q B first.2) ⟨first.1, t⟩).trainer rest = _
    rw [hafter]
    exact hsame

end Calls

/-- A trainer that was set up fits. -/
theorem fits_of_built {A : Approximator Q} {sound : Q → Prop} {q : Q} {catalog : Catalog}
    {settings : TrainingSettings} {programs : List Program} {t : Trainer Q}
    (hA : A.Serves sound (A.inputDim q) catalog.size) (hq : sound q)
    (ht : @Trainer.Built Q A settings catalog programs q t) :
    t.Fits sound (A.inputDim q) catalog := by
  obtain ⟨hs, _⟩ := ht.starts
  have hsound := hA.setTraining q true hq
  exact {
    online := hs.online ▸ hsound
    target := hs.target ▸ hsound
    valid := hs.settings ▸ TrainingSettings.valid_of_validate hs.valid
    capacity := by rw [hs.buffer, hs.settings]; rfl
    programs := hs.programs
    entries := by rw [hs.buffer]; exact nofun
    catalog := hs.catalog }

/-- So does what errands make of it. -/
theorem fits_sent {A : Approximator Q} {sound : Q → Prop} {q : Q} {catalog : Catalog}
    {settings : TrainingSettings} {programs : List Program} {t : Trainer Q}
    (hA : A.Serves sound (A.inputDim q) (A.outputDim q)) (hq : sound q)
    (ht : @Trainer.Built Q A settings catalog programs q t) (errands : List (World σ × Errand σ Q)) :
    (@sent σ Q A t errands).Fits sound (A.inputDim q) catalog := by
  rw [show A.outputDim q = catalog.size from @Trainer.Built.outputs Q A _ _ _ _ _ ht] at hA
  exact (sent_concurs hA hA.concurs (fits_of_built hA hq ht) errands).2

/-- Whatever a trainer that was set up is asked for, in whatever order the workers of its rounds
take turns and whatever the tools do, its buffer only holds transitions between observations of the
approximator's width, by actions of the catalog. All of it, every further errand, every rollout and
every turn of a round comes to the same with every approximator that differs out of range only, say
by having no answer there. None fails because an approximator was asked for what it has no answer
to, something was to be chosen among nothing, a sample was to be larger than the buffer, or an
action was none of the catalog; only a gradient step does, if the approximator makes none from what
is in range. -/
theorem errands_stay_in_range {A B : Approximator Q} {sound : Q → Prop} {q : Q}
    (hA : A.Serves sound (A.inputDim q) (A.outputDim q)) (hq : sound q)
    (hB : A.Concurs B (A.inputDim q) (A.outputDim q)) {settings : TrainingSettings}
    {catalog : Catalog} {programs : List Program} {t₀ : Trainer Q}
    (ht : @Trainer.Built Q A settings catalog programs q t₀)
      (errands : List (World σ × Errand σ Q)) :
    let t := @sent σ Q A t₀ errands
    @sent σ Q B t₀ errands = t ∧
    (∀ x ∈ t.buffer.entries, x.Fits (A.inputDim q) catalog.size) ∧
    (∀ w errand, @Errand.run σ Q B errand ⟨w, t⟩ = @Errand.run σ Q A errand ⟨w, t⟩ ∧
      ∀ e l, @Errand.run σ Q A errand ⟨w, t⟩ = .error e l →
        Excused A (A.inputDim q) catalog.size e l) ∧
    (∀ tc w role i rng, @Training.rollout Q σ B tc role i rng ⟨w, t⟩ =
        @Training.rollout Q σ A tc role i rng ⟨w, t⟩ ∧
      ∀ e rng' l, @Training.rollout Q σ A tc role i rng ⟨w, t⟩ = .ok (.error e, rng') l →
        e.InRange) ∧
    ∀ tc worlds jobs turns,
      let r := @Round.run σ Q A (planOf tc t) (Round.start worlds t jobs) turns
      @Round.run σ Q B (planOf tc t) (Round.start worlds t jobs) turns = r ∧
        ∀ w ∈ r.workers, w.Satisfies fun phase _ => phase.Ranged (A.inputDim q) catalog.size := by
  intro t
  have hout : A.outputDim q = catalog.size := @Trainer.Built.outputs Q A _ _ _ _ _ ht
  rw [hout] at hA hB
  obtain ⟨same, hfits⟩ := sent_concurs hA hB (fits_of_built hA hq ht) errands
  refine ⟨same, hfits.entries, fun w errand => ?_, fun tc w role i rng => ?_,
    fun tc worlds jobs turns => ?_⟩
  · obtain ⟨same, within⟩ := errand_concurs hA hB errand (l := ⟨w, t⟩) hfits
    refine ⟨same, fun e l he => ?_⟩
    rw [he] at within
    exact within.1
  · obtain ⟨same, within⟩ := rollouts_concur tc hA hB role i rng (l := ⟨w, t⟩) hfits
    refine ⟨same, fun e rng' l he => ?_⟩
    rw [he] at within
    exact within.1
  · rw [← hfits.catalog] at hA hB ⊢
    exact run_concurs hA hB hfits.online
      (Round.satisfies_start (fun _ _ _ => trivial) worlds jobs) turns

/-! ## Networks and others -/

/-- The approximator with no answer out of range. -/
@[reducible]
def Approximator.strict (A : Approximator Q) (inputs outputs : Nat) : Approximator Q where
  inputDim := A.inputDim
  outputDim := A.outputDim
  predict? q input := if input.length = inputs then A.predict? q input else none
  fit? q batch clip :=
    if ∀ x ∈ batch, x.input.length = inputs ∧ x.action < outputs then A.fit? q batch clip else none
  parameters := A.parameters
  setTraining := A.setTraining
  isTraining := A.isTraining

theorem concurs_strict (A : Approximator Q) (inputs outputs : Nat) :
    A.Concurs (A.strict inputs outputs) inputs outputs where
  inputDim := rfl
  outputDim := rfl
  setTraining := rfl
  isTraining := rfl
  predict _ _ h := if_pos h
  fit _ _ _ h := if_pos h

theorem serves_constantScores (inputs outputs : Nat) :
    (inferInstance : Approximator ConstantScores).Serves
      (fun q => q.inputDim = inputs ∧ q.scores.length = outputs) inputs outputs where
  inputDim _ h := h.1
  outputDim _ h := h.2
  predict q _ h _ := ⟨q.scores, rfl, h.2⟩
  fit q batch _ loss q' h _ hfit := by cases hfit; exact h
  setTraining _ _ h := h

/-- Networks of a shape keep it. -/
theorem serves_network (inputs outputs : Nat) :
    (inferInstance : Approximator Network).Serves (·.HasShape inputs outputs) inputs outputs where
  inputDim _ h := h.widths.1
  outputDim _ h := h.widths.2
  predict _ _ h width := by
    obtain ⟨scores, hscores, hlength, -⟩ := h.predict width
    exact ⟨scores, hscores, hlength⟩
  fit _ _ clip _ _ h hbatch hfit := by
    obtain ⟨_, _, hmade, shape, -⟩ | ⟨hnone, -⟩ := h.fit (fun x hx => (hbatch x hx).2) clip
    · cases hmade.symm.trans hfit
      exact shape
    · cases hnone.symm.trans hfit
  setTraining _ _ h := h

/-- They make every step but the one that their counter has no number for. -/
theorem steps_of_refuses {inputs outputs : Nat} {n : Network} (h : n.HasShape inputs outputs)
    (refuses : (inferInstance : Approximator Network).Refuses inputs outputs n) :
    n.steps.toNat + 1 = UInt32.size := by
  obtain ⟨batch, clip, -, hbatch, hclip, hfit⟩ := refuses
  obtain ⟨_, _, hmade, -⟩ | ⟨-, -, hlimit | hsteps⟩ := h.fit (fun x hx => (hbatch x hx).2) clip
  · exact absurd (hmade.symm.trans hfit) nofun
  · exact absurd (Singles.neg_le_self hclip) hlimit.1
  · exact hsteps.1

theorem hasShape_schoolNetwork : schoolNetwork.HasShape 1 1 := Network.hasShape_new 1 1 0.01 0

theorem inputDim_schoolNetwork : Approximator.inputDim schoolNetwork = 1 :=
  hasShape_schoolNetwork.widths.1

theorem outputDim_schoolNetwork : Approximator.outputDim schoolNetwork = 1 :=
  hasShape_schoolNetwork.widths.2

theorem serves_schoolNetwork : (inferInstance : Approximator Network).Serves (·.HasShape 1 1)
    (Approximator.inputDim schoolNetwork) (Approximator.outputDim schoolNetwork) := by
  rw [inputDim_schoolNetwork, outputDim_schoolNetwork]
  exact serves_network 1 1

theorem errands_stay_in_range_relay : ∃ (programs : List Program) (l : Lab Calls Network),
    Trainer.Built relaying Program.soloCatalog programs schoolNetwork l.trainer ∧
    (sent l.trainer (relayErrands l)).buffer.length = 2 ∧
    (∀ x ∈ (sent l.trainer (relayErrands l)).buffer.entries, x.Fits 1 1) ∧
    @sent Calls Network (Approximator.strict inferInstance 1 1) l.trainer (relayErrands l) =
      sent l.trainer (relayErrands l) ∧
    ∀ (w : World Calls) (errand : Errand Calls Network),
      @Errand.run Calls Network (Approximator.strict inferInstance 1 1) errand
        ⟨w, sent l.trainer (relayErrands l)⟩ = errand.run ⟨w, sent l.trainer (relayErrands l)⟩ := by
  obtain ⟨programs, l, -, hbuilt, hrelays⟩ := exists_relay
  obtain ⟨same, entries, calls, -⟩ := errands_stay_in_range serves_schoolNetwork
    hasShape_schoolNetwork (concurs_strict _ _ _) hbuilt (relayErrands l)
  rw [inputDim_schoolNetwork, outputDim_schoolNetwork] at same calls
  rw [inputDim_schoolNetwork] at entries
  exact ⟨programs, l, hbuilt, (of_relays hrelays).1, entries, same,
    fun w errand => (calls w errand).1⟩

end PassTuner
