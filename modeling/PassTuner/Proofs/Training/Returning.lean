import PassTuner.Proofs.Training.Rotas

/-!
# Programs come back to the base

A rollout does not end but with a reset, and a reset goes to the base first, whether the measurement
that may follow succeeds or not. So a program is away from its base only while a rollout is on its
way. Main statement: after any errands, whatever they came to and in whatever order workers took
their turns in the rounds, all programs of a trainer are at their base.
-/

namespace PassTuner

variable {σ Q : Type}

/-- The program is at its base and fits together. -/
structure Program.AtBase (p : Program) : Prop where
  coherent : Coherent p
  lineage : p.lineage = .base

/-- The program is at its base, and measured as the base is or not at all. -/
def Program.AtRest (p : Program) : Prop :=
  p.lineage = .base ∧
    (p.stage = .measured ∧ p.current.isSome ∧ p.current = p.base ∨ p.current = none)

namespace Program

variable {p q : Program} {b : Bench σ}

theorem AtBase.atRest (h : AtBase p) : AtRest p := by
  refine ⟨h.lineage, ?_⟩
  by_cases hs : p.stage = .measured
  · exact .inl ⟨hs, h.coherent.measured.1 hs, h.coherent.home h.lineage hs⟩
  · refine .inr (Option.not_isSome_iff_eq_none.1 fun hcurrent => ?_)
    exact hs (h.coherent.measured.2 hcurrent)

/-- A measurement does not move. -/
theorem lineage_measure (tc : Toolchain σ) (b : Bench σ) :
    ((measure tc).after b).program.lineage = b.program.lineage := by
  cases h : measure tc b with
  | error e b' =>
    rw [Work.after_of_error h]
    exact (measure_of_error h).lineage
  | ok m b' =>
    rw [Work.after_of_ok h]
    exact (measure_of_ok h).lineage

/-- A reset leads to the base, also if it fails. -/
theorem atBase_reset (tc : Toolchain σ) (hp : Coherent b.program) :
    AtBase ((reset tc).after b).program := by
  refine ⟨coherent_reset tc hp, ?_⟩
  cases hf : baseIsFresh b.program b.world.clock with
  | true => rw [Work.after_of_ok (reset_of_fresh tc hf)]
  | false =>
    have hlineage := lineage_measure tc ⟨{ b.world with clock := b.world.clock + 1 },
      { b.program with lineage := .base, current := none, stage := .unbuilt }⟩
    have hr := reset_of_stale tc hf
    cases h : measure tc ⟨{ b.world with clock := b.world.clock + 1 },
        { b.program with lineage := .base, current := none, stage := .unbuilt }⟩ with
    | error e b₂ =>
      rw [Work.after_of_error h] at hlineage
      rwa [Work.after_of_error (hr.trans (EStateM.bind_of_error h _))]
    | ok m b₂ =>
      rw [Work.after_of_ok h] at hlineage
      rwa [Work.after_of_ok (hr.trans (EStateM.bind_of_ok h _))]

/-- A program that was opened is at its base. -/
theorem atBase_open {tc : Toolchain σ} {settings : EnvironmentSettings} {source : String}
    {w w' : World σ} (h : Program.open tc settings source w = .ok p w') : AtBase p := by
  refine ⟨coherent_open h, ?_⟩
  obtain ⟨extension, file, name, stem⟩ := valid_of_open_ok h
  rw [open_of_valid tc settings extension file stem] at h
  obtain ⟨cache, w₁, _, h⟩ := EStateM.of_bind_ok h
  unfold starting at h
  split at h
  · rename_i b hb
    cases h
    obtain ⟨_, b₁, hbuild, hb⟩ := EStateM.of_bind_ok hb
    obtain ⟨m, b₂, hmeasure, hb⟩ := EStateM.of_bind_ok hb
    cases hb
    exact (measure_of_ok hmeasure).lineage.trans ((build_unmeasured tc).of_ok hbuild).lineage
  · cases h

end Program

/-! ## Rollouts -/

namespace Walk

/-- A rollout on its way has a program that fits together; when it is over, the program is back. -/
def Returns (phase : Phase) (b : Bench σ) : Prop :=
  Program.Coherent b.program ∧ (phase.result?.isSome → Program.AtBase b.program)

variable [Approximator Q] {plan : Plan σ Q}

omit [Approximator Q] in
theorem sustained_coherent (plan : Plan σ Q) :
    Sustained plan (Coherent : Trail σ → Prop) fun _ => True where
  measure := (keeps_attempt fun _ => Program.coherent_measure plan.tools).ends
  step action := (keeps_attempt fun _ => Program.coherent_step plan.tools plan.catalog action).ends
  width _ _ _ := trivial

theorem attempt_bench {α : Type} (work : Work σ α) (t : Trail σ) :
    match attempt work t with
    | .ok _ t' => t'.bench = work.after t.bench
    | .error _ t' => t'.bench = work.after t.bench := by
  unfold attempt
  cases h : work t.bench with
  | ok a b => exact (Work.after_of_ok h).symm
  | error e b =>
    dsimp only
    cases e.isStepFailure <;> exact (Work.after_of_error h).symm

theorem bench_turn_leaving (plan : Plan σ Q) (walked : Except TrainingError Episode) (t : Trail σ) :
    (turn plan (.leaving walked, t)).2.bench = (Program.reset plan.tools).after t.bench := by
  have h := attempt_bench (Program.reset plan.tools) t
  simp only [turn, onward, leave]
  cases ha : attempt (Program.reset plan.tools) t with
  | ok _ t' =>
    rw [ha] at h
    exact h
  | error _ t' =>
    rw [ha] at h
    cases walked <;> exact h

/-- Each turn keeps the program fitting together, and only a reset ends a rollout. -/
theorem stable_returns (plan : Plan σ Q) : Stable plan Returns := by
  intro phase t hr ⟨hcoherent, _⟩
  by_cases hl : ∃ walked, phase = .leaving walked
  · obtain ⟨walked, rfl⟩ := hl
    have hback := Program.atBase_reset plan.tools hcoherent
    rw [← bench_turn_leaving plan walked t] at hback
    exact ⟨hback.coherent, fun _ => hback⟩
  · have hl (walked : Except TrainingError Episode) : phase ≠ .leaving walked :=
      fun heq => hl ⟨walked, heq⟩
    have hkept := (sustained_coherent plan).onward hr hl fun _ _ _ _ => (keeps_select _ _ _).ends
    cases h : onward plan phase t with
    | ok next t' =>
      rw [turn_of_ok h]
      have hwalks := (answers_onward plan phase hr t next t' h).walks hl
      exact ⟨(hkept.of_ok hcoherent h).1, fun hover => by simp [hwalks] at hover⟩
    | error fault t' =>
      rw [turn_of_error h]
      exact ⟨(hkept.of_error hcoherent h).1, nofun⟩

end Walk

/-! ## Errands -/

namespace Training

/-- All programs of a role are of a kind. -/
def Throughout (P : Program → Prop) (role : Role) (l : Lab σ Q) : Prop :=
  ∀ p ∈ programsOf l.trainer role, P p

variable {P : Program → Prop}

theorem throughout_setProgram {t : Trainer Q} {w w' : World σ} {role : Role}
    (h : Throughout P role (⟨w, t⟩ : Lab σ Q)) (i : Nat) {p : Program} (hp : P p)
    (e : Exploration) :
    Throughout P role (⟨w', { setProgram t role i p with schedule := e }⟩ : Lab σ Q) := by
  have mem {programs : List Program} (h : ∀ p ∈ programs, P p) : ∀ p' ∈ programs.set i p, P p' :=
    fun p' hp' => (List.mem_or_eq_of_mem_set hp').elim (h p') fun heq => heq ▸ hp
  cases role <;> exact mem h

variable [Approximator Q]

/-- Programs of a kind are so after each rollout that starts with one of them, however it ends. -/
def Restores (σ Q : Type) [Approximator Q] (P : Program → Prop) : Prop :=
  ∀ (plan : Plan σ Q) (t : Trail σ), P t.bench.program →
    P (Walk.outcome plan (.arriving, t)).2.bench.program

theorem throughout_rollout (hP : Restores σ Q P) (tc : Toolchain σ) (role : Role) (i : Nat)
    (rng : Rng) {l : Lab σ Q} (hl : Throughout P role l) :
    Throughout P role (after (rollout tc role i rng) l) := by
  unfold after rollout
  cases hp : (programsOf l.trainer role)[i]? with
  | none => exact hl
  | some p =>
    have hback := hP (planOf tc l.trainer) ⟨⟨l.world, p⟩, ⟨l.trainer.schedule, rng⟩⟩
      (hl p (List.mem_of_getElem? hp))
    rw [Walk.outcome_arriving] at hback
    simp only [planOf] at hback
    dsimp only
    cases hr : Walk.rollout tc l.trainer.catalog l.trainer.online l.trainer.settings.maxSteps
        ⟨⟨l.world, p⟩, ⟨l.trainer.schedule, rng⟩⟩ with
    | ok r trail =>
      rw [hr] at hback
      exact throughout_setProgram hl i hback _
    | error e trail =>
      rw [hr] at hback
      exact throughout_setProgram hl i hback _

/-- What rollouts restore, all calls keep of the programs of a role, whichever they roll out. -/
theorem kept_throughout (hP : Restores σ Q P) (tc : Toolchain σ) (role : Role) :
    Kept tc (Throughout P role : Lab σ Q → Prop) (fun _ => True) where
  rollout other i rng l hl := by
    have hafter : Throughout P role (after (rollout tc other i rng) l) := by
      by_cases hother : other = role
      · subst hother
        exact throughout_rollout hP tc other i rng hl
      · have hspared := (rolls_rollout tc other i rng l).spared role (Ne.symm hother)
        intro p hp
        rw [hspared] at hp
        exact hl p hp
    cases h : rollout tc other i rng l with
    | ok rolled l' =>
      rw [after_of_ok h] at hafter
      exact ⟨hafter, fun _ _ => trivial⟩
    | error e l' =>
      rw [after_of_error h] at hafter
      exact ⟨hafter, trivial⟩
  others l t same hl := by
    rw [Throughout, same]
    exact hl
  own _ _ := trivial

/-- A rollout puts its program back at the base, however it ends. -/
theorem restores_atBase : Restores σ Q Program.AtBase := by
  intro plan t ht
  have hback := (Walk.stable_returns plan).outcome (x := (.arriving, t)) ⟨ht.coherent, nofun⟩
  refine hback.2 ?_
  rw [Walk.outcome_arriving]
  cases Walk.rollout plan.tools plan.catalog plan.online plan.maxSteps t <;> rfl

theorem restores_coherent : Restores σ Q Program.Coherent := by
  intro plan t ht
  exact ((Walk.stable_returns plan).outcome (x := (.arriving, t)) ⟨ht, nofun⟩).1

/-- When a round is over, the programs of its workers are back. -/
theorem atBase_of_round (rota : Rota σ Q) (tc : Toolchain σ) (jobs : List (Nat × UInt64))
    {l : Lab σ Q} (hl : ∀ p ∈ l.trainer.programs, Program.Coherent p) :
    ∀ w ∈ (rota.round tc jobs l).workers, Program.AtBase w.bench.program := by
  intro w hw
  obtain ⟨result, hover⟩ := rota.done tc jobs l w hw
  have hreturns : w.Satisfies Walk.Returns := Round.satisfies_run (Walk.stable_returns _)
    (Round.satisfies_start (fun p hp _ => ⟨hl p hp, nofun⟩) _ jobs) _ w hw
  rw [Worker.Satisfies, hover] at hreturns
  exact hreturns.2 rfl

/-- Crews of rotas keep programs fitting together, or even at their base. -/
theorem throughout_crew (fits : ∀ p, P p → Program.Coherent p) (back : ∀ p, Program.AtBase p → P p)
    (rota : Rota σ Q) (tc : Toolchain σ) (role : Role) (jobs : List (Nat × UInt64)) :
    Ends (Throughout P role) (fun _ => True) (fun results => ∀ e, .error e ∈ results → True)
      (rota.crew tc jobs) := by
  intro l hl
  refine ⟨?_, fun _ _ => trivial⟩
  cases role with
  | heldOut => exact hl
  | trained =>
    intro p hp
    rcases Round.mem_putBack hp with hold | ⟨w, hw, rfl⟩
    · exact hl p hold
    · exact back _ (atBase_of_round rota tc jobs (fun p hp => fits p (hl p hp)) w hw)

theorem programs_learning (role : Role) (l : Lab σ Q) :
    programsOf (after (Act.learning : Act σ Q).run l).trainer role = programsOf l.trainer role := by
  unfold Act.run
  cases h : (learn : Training σ Q (Option Float32)) l with
  | error e l' => rw [after_bind_of_error h, (of_ofTrainer_error h).2]
  | ok loss? l' =>
    rw [after_bind_of_ok h]
    have hlearns := Trainer.learns_of_ok (of_ofTrainer_ok h).1
    show programsOf l'.trainer role = programsOf l.trainer role
    generalize l'.trainer = t' at hlearns ⊢
    cases hlearns <;> cases role <;> rfl

/-- What rollouts and rounds restore, errands keep. -/
theorem throughout_errand (hP : Restores σ Q P) (fits : ∀ p, P p → Program.Coherent p)
    (back : ∀ p, Program.AtBase p → P p) (role : Role) (errand : Errand σ Q) {l : Lab σ Q}
    (hl : Throughout P role l) : Throughout P role (after errand.run l) := by
  have ending {x : Training σ Q Unit} (hx : Fine (Throughout P role) (fun _ => True) x) :
      Throughout P role (after x l) := by
    unfold after
    cases h : x l with
    | ok _ l' => exact (hx.of_ok hl h).1
    | error e l' => exact (hx.of_error hl h).1
  have hkept (tc : Toolchain σ) := kept_throughout hP tc role
  cases errand with
  | episode tc => exact ending ((hkept tc).runEpisode.bind fun _ _ => fine_pure _)
  | training tc rota =>
    have hcrew := throughout_crew fits back rota tc role
    exact ending (((hkept tc).trainBy hcrew).bind fun _ _ => fine_pure _)
  | learning =>
    have hsame : programsOf (after (Errand.run .learning) l).trainer role = _ :=
      programs_learning role l
    rwa [Throughout, hsame]
  | evaluation tc => exact ending ((hkept tc).evaluate.bind fun _ _ => fine_pure _)
  | syncing => cases role <;> exact hl

variable {settings : TrainingSettings} {catalog : Catalog} {programs : List Program} {q : Q}
  {t : Trainer Q}

/-- **Programs come back.** A trainer was set up with programs at their base, and is sent on errands
in any order, each with tools of its own, whatever they come to; in rounds of training the workers
take turns in any order. Then all of its programs, those to train on and those held out, are at
their base, each measured as its base is, or not at all. -/
theorem programs_return (ht : Trainer.Built settings catalog programs q t)
    (handed : ∀ p ∈ programs, (∃ w : World σ, Program.Reachable ⟨w, p⟩) ∧ p.lineage = .base)
    (errands : List (World σ × Errand σ Q)) (role : Role) :
    ∀ p ∈ programsOf (sent t errands) role, Program.AtBase p ∧ Program.AtRest p := by
  have hstart : ∀ p ∈ programsOf t role, Program.AtBase p := fun p hp => by
    have hmem : p ∈ t.programs ++ t.holdout := by
      cases role with
      | trained => exact List.mem_append_left _ hp
      | heldOut => exact List.mem_append_right _ hp
    obtain ⟨⟨w', hreached⟩, hbase⟩ := handed p (ht.starts.2 p hmem)
    exact ⟨hreached.coherent, hbase⟩
  have hback : ∀ p ∈ programsOf (sent t errands) role, Program.AtBase p :=
    sent_induction (J := fun t => ∀ p ∈ programsOf t role, Program.AtBase p) hstart
      (fun w errand t h => throughout_errand restores_atBase (fun _ hp => hp.coherent)
        (fun _ hp => hp) role errand (l := ⟨w, t⟩) h) errands
  exact fun p hp => ⟨hback p hp, (hback p hp).atRest⟩

theorem programs_return_relay : ∃ (programs : List Program) (l : Lab Calls Network),
    (∀ p ∈ programs, (∃ w : World Calls, Program.Reachable ⟨w, p⟩) ∧ p.lineage = .base) ∧
    Trainer.Built relaying Program.soloCatalog programs schoolNetwork l.trainer ∧
    relays l = true ∧
    ∀ role, ∀ p ∈ programsOf (sent l.trainer (relayErrands l)) role,
      Program.AtBase p ∧ Program.AtRest p := by
  obtain ⟨programs, l, hopened, built, hrelays⟩ := exists_relay
  have handed : ∀ p ∈ programs, (∃ w : World Calls, Program.Reachable ⟨w, p⟩) ∧
    p.lineage = .base := by
    intro p hp
    obtain ⟨_, _, _, w', ho⟩ := hopened p hp
    exact ⟨⟨w', .opened ho⟩, (Program.atBase_open ho).lineage⟩
  exact ⟨programs, l, handed, built, hrelays, programs_return built handed (relayErrands l)⟩

/-! A program whose base is too old at once. -/

/-- The program that was opened with certain tools, and the lab of a trainer for it. -/
def agingLab? (tc : Toolchain Calls) : Option (Program × Lab Calls ConstantScores) :=
  match Program.open tc ⟨"build", some 0⟩ "bench.ll" Program.flakyWorld with
  | .error _ _ => none
  | .ok p w =>
    match Trainer.withSplit { maxSteps := 1 } Program.soloCatalog [p] [] constant with
    | .error _ => none
    | .ok t => some (p, ⟨w, t⟩)

theorem of_agingLab? {tc : Toolchain Calls} {p : Program} {l : Lab Calls ConstantScores}
    (h : agingLab? tc = some (p, l)) :
    ((∃ w : World Calls, Program.Reachable ⟨w, p⟩) ∧ p.lineage = .base) ∧
      Trainer.Built { maxSteps := 1 } Program.soloCatalog [p] constant l.trainer := by
  unfold agingLab? at h
  split at h
  · cases h
  rename_i p' w' ho
  split at h
  · cases h
  rename_i t' ht
  cases h
  exact ⟨⟨⟨w', .opened ho⟩, (Program.atBase_open ho).lineage⟩, .split rfl ht⟩

end Training

end PassTuner
