import PassTuner.Proofs.Training.Returning
import PassTuner.Proofs.Training.Rollouts
import PassTuner.Proofs.Training.Acts

/-!
# What the speedups of an evaluation compare

An evaluation reads the cost of the base of a held-out program before its walk, and the cost of the
variant that was reached after it. A walk that finds the program unmeasured, because a reset failed
before, measures the base anew; the cost that was read is then of a measurement that the walk did
not start from. Main statement: a reported speedup compares the two ends of its walk whenever the
program was measured before it, and the base as it was known with the end of the walk otherwise.
-/

namespace PassTuner

variable {σ Q α β : Type}

/-! ## The ends of a walk -/

/-- A step that fails at a measured lineage leaves its measurement alone. -/
theorem Program.current_of_step_error {tc : Toolchain σ} {catalog : Catalog} {action : ActionId}
    {b b' : Bench σ} {e : EnvironmentError} {m : Measurement} (hb : Coherent b.program)
    (hm : b.program.current = some m) (h : step tc catalog action b = .error e b') :
    b'.program.current = some m := by
  cases hd : catalog.describe action with
  | error fault =>
    rw [step_of_unknown tc hd] at h
    cases h
    exact hm
  | ok flag =>
    have hcost : b.program.measuredCost? = some m.cost := by
      have hs := hb.measured.2 (by rw [hm]; rfl)
      simp [measuredCost?, cost?, hs, hm]
    rw [step_of_known tc hd, EStateM.bind_of_ok (standingCost_of_measured tc hcost)] at h
    rw [(advance_of_error h).current, hm]

namespace Walk

variable [Approximator Q] {tc : Toolchain σ} {catalog : Catalog} {q : Q} {t t' : Trail σ}
  {o : Observation} {e e' : Episode}

/-- The measurement that successful steps lead to. -/
def reached? (m : Measurement) (ms : List (Move σ)) : Option Measurement :=
  match ms.getLast? with
  | none => some m
  | some last => last.after.program.current

theorem reached?_cons {m second : Measurement} {move : Move σ} (ms : List (Move σ))
    (h : move.after.program.current = some second) :
    reached? m (move :: ms) = reached? second ms := by
  unfold reached?
  cases ms with
  | nil => exact h
  | cons next rest =>
    rw [List.getLast?_cons_cons]
    cases hlast : (next :: rest).getLast? with
    | none => simp at hlast
    | some last => rfl

/-- The first successful step of a walk starts where the walk does, and the walk ends where the last
one led. -/
theorem steps_ends {n : Nat} {m : Measurement} (ht : Coherent t)
    (hm : t.bench.program.current = some m) (h : steps tc catalog q n o e t = .ok e' t') :
    e'.length = e.length + (movesFrom tc catalog q n o t).length ∧
      (∀ first ∈ (movesFrom tc catalog q n o t).head?, first.before = t.bench) ∧
      t'.bench.program.current = reached? m (movesFrom tc catalog q n o t) := by
  induction n generalizing o e t m with
  | zero =>
    cases h
    exact ⟨rfl, fun _ hfirst => absurd hfirst (Option.not_mem_none _), hm⟩
  | succ n ih =>
    unfold steps at h
    obtain ⟨action, t₁, hselect, h⟩ := EStateM.of_bind_ok h
    obtain ⟨ended, t₂, hattempt, h⟩ := EStateM.of_bind_ok h
    have hbench := bench_of_select hselect
    have ht₁ : Program.Coherent t₁.bench.program := by rw [hbench]; exact ht
    rw [← hbench] at hm
    have hafter := attempt_bench (Program.step tc catalog action) t₁
    rw [hattempt] at hafter
    rcases of_attempt_ok hattempt with ⟨reward, b, rfl, hstep, rfl⟩ | ⟨fault, b, rfl, hstep⟩
    · obtain ⟨p, t₃, hprogram, h⟩ := EStateM.of_bind_ok h
      cases hprogram
      obtain ⟨second, hsecond, _⟩ := Program.reward_of_step ht₁ hm hstep
      have hstate : b.program.state? = some second.state := by simp [Program.state?, hsecond]
      have hb : Program.Coherent b.program := by
        have hkept := Program.coherent_step tc catalog action ht₁
        rwa [Work.after_of_ok hstep] at hkept
      simp only [hstate] at h
      obtain ⟨_, t₃, hdim, h⟩ := EStateM.of_bind_ok h
      obtain ⟨hlength, hsame⟩ := of_checkDim_ok hdim
      rw [hsame] at h
      obtain ⟨hcount, _, hend⟩ := ih (t := ⟨b, t₁.explorer⟩) hb hsecond h
      simp only [movesFrom, hselect, hstep, hstate, if_pos hlength]
      refine ⟨?_, fun first hfirst => ?_, ?_⟩
      · rw [hcount, Episode.length_record, List.length_cons]
        omega
      · cases hfirst
        exact hbench
      · rw [hend, reached?_cons _ hsecond]
    · cases h
      simp only [movesFrom, hselect, hstep]
      refine ⟨rfl, fun _ hfirst => absurd hfirst (Option.not_mem_none _), ?_⟩
      rw [hafter, Work.after_of_error hstep]
      exact Program.current_of_step_error ht₁ hm hstep

omit [Approximator Q] in
/-- A walk starts at the lineage of its program, which it measures only if that was not done. -/
theorem start_of_observe (h : observe tc t = .ok (some o) t') :
    t'.bench.program.lineage = t.bench.program.lineage ∧
      (t.bench.program.current.isSome → t' = t) := by
  unfold observe at h
  obtain ⟨p, t₁, hprogram, h⟩ := EStateM.of_bind_ok h
  cases hprogram
  cases hs : t.bench.program.state? with
  | some o₁ =>
    simp only [hs] at h
    cases h
    exact ⟨rfl, fun _ => rfl⟩
  | none =>
    simp only [hs] at h
    obtain ⟨ended, t₂, hattempt, h⟩ := EStateM.of_bind_ok h
    rcases of_attempt_ok hattempt with ⟨m, b, rfl, hm, rfl⟩ | ⟨fault, b, rfl, _⟩
    · cases h
      refine ⟨(Program.measure_of_ok hm).lineage, fun hsome => ?_⟩
      rw [Program.state?, Option.map_eq_none_iff] at hs
      rw [hs] at hsome
      cases hsome
    · cases h

/-- Both costs of a quotient of which one was rewarded, as the first or as the second, are costs. -/
theorem speedup_of_rewards {c₀ c₁ c₂ c₃ x y : Float} (hx : Cost.reward c₀ c₁ = .ok x)
    (hy : Cost.reward c₂ c₃ = .ok y) : Cost.speedup c₀ c₃ = .ok (c₀ / c₃) := by
  unfold Cost.reward Cost.compare at hx hy
  unfold Cost.speedup Cost.compare
  split at hx
  · rename_i hfirst
    split at hy
    · rename_i hlast
      rw [Bool.and_eq_true] at hfirst hlast
      rw [if_pos (by rw [hfirst.1, hlast.2]; rfl)]
    · cases hy
  · cases hx

omit [Approximator Q] in
theorem shown_of_mem {ms : List (Move σ)} {xs : List Transition}
    (h : List.Forall₂ (Move.Shows catalog) ms xs) {move : Move σ} (hm : move ∈ ms) :
    ∃ x, move.Shows catalog x := by
  obtain ⟨i, hi, rfl⟩ := List.mem_iff_getElem.1 hm
  exact ⟨_, h.get hi (h.length_eq ▸ hi)⟩

/-- Where a walk that makes a successful step starts and where it ends. -/
structure Ends (ms : List (Move σ)) (v : Variant) (m₀ mₖ : Measurement) : Prop where
  start : ∃ first ∈ ms.head?, first.before.program.lineage = v ∧
    first.before.program.current = some m₀
  reached : ∃ last ∈ ms.getLast?, last.after.program.current = some mₖ

/-- The cost that is read after a walk with a successful step is the one of its end, and that of its
start is comparable; it starts at the measurement that was there, if there was one. -/
theorem rollout_ends {maxSteps : Nat} {r : Rollout} (ht : Coherent t)
    (h : rollout tc catalog q maxSteps t = .ok r t') :
    r.episode.length = (moves tc catalog q maxSteps t).length ∧
      (moves tc catalog q maxSteps t ≠ [] → ∃ m₀ mₖ,
        Ends (moves tc catalog q maxSteps t) t.bench.program.lineage m₀ mₖ ∧
        r.finalCost = some mₖ.cost ∧ Cost.speedup m₀.cost mₖ.cost = .ok (m₀.cost / mₖ.cost) ∧
        ∀ m ∈ t.bench.program.current, m₀ = m) := by
  obtain ⟨t₁, hrun, hfinal⟩ := of_rollout_ok h
  have hshown := rollout_shown ht h
  unfold run at hrun
  obtain ⟨observed, t₂, hobserve, hrun⟩ := EStateM.of_bind_ok hrun
  cases observed with
  | none =>
    have hnone : moves tc catalog q maxSteps t = [] := by simp only [moves, hobserve]
    obtain ⟨hepisode, _⟩ := EStateM.Result.ok.inj hrun
    rw [hnone, ← hepisode]
    exact ⟨rfl, fun hsome => absurd rfl hsome⟩
  | some o =>
    obtain ⟨p, t₃, hprogram, hrun⟩ := EStateM.of_bind_ok hrun
    cases hprogram
    obtain ⟨_, t₃, hdim, hrun⟩ := EStateM.of_bind_ok hrun
    obtain ⟨hlength, hsame⟩ := of_checkDim_ok hdim
    rw [hsame] at hrun
    obtain ⟨ht₂, ho⟩ := state?_of_observe ht hobserve
    obtain ⟨hlineage, hmeasured⟩ := start_of_observe hobserve
    obtain ⟨m₀, hm₀, rfl⟩ := current_of_state? ho
    obtain ⟨hcount, hfirst, hlast⟩ := steps_ends ht₂ hm₀ hrun
    have hmoves : moves tc catalog q maxSteps t = movesFrom tc catalog q maxSteps m₀.state t₂ := by
      simp only [moves, hobserve, if_pos hlength]
    rw [hmoves] at hshown ⊢
    refine ⟨hcount.trans (Nat.zero_add _), fun hsome => ?_⟩
    have hhead := List.head?_eq_some_head hsome
    have hgetLast := List.getLast?_eq_some_getLast hsome
    generalize List.head _ hsome = first at hhead
    generalize List.getLast _ hsome = last at hgetLast
    obtain ⟨x, _, _, _, first₀, first₁, hbefore, _, _, _, hrewarded⟩ :=
      shown_of_mem hshown (List.mem_of_mem_head? hhead)
    obtain ⟨y, _, _, _, last₀, mₖ, _, hafter, _, _, hrewardedₖ⟩ :=
      shown_of_mem hshown (List.mem_of_getLast? hgetLast)
    rw [hfirst first hhead, hm₀] at hbefore
    cases hbefore
    rw [reached?, hgetLast] at hlast
    have hlast : t₁.bench.program.current = last.after.program.current := hlast
    refine ⟨m₀, mₖ, ⟨⟨first, hhead, ?_, ?_⟩, last, hgetLast, hafter⟩, ?_, ?_, fun m hm => ?_⟩
    · rw [hfirst first hhead, hlineage]
    · rw [hfirst first hhead, hm₀]
    · rw [hfinal, Program.cost?, hlast, hafter, Option.map_some]
    · exact speedup_of_rewards hrewarded hrewardedₖ
    · rw [hmeasured (Option.isSome_of_mem hm)] at hm₀
      exact Option.mem_unique hm₀ hm

end Walk

/-! ## Results -/

/-- The successful steps of the rollout that starts. -/
def Start.moves [Approximator Q] (s : Start σ Q) : List (Move σ) :=
  Walk.moves s.plan.tools s.plan.catalog s.plan.online s.plan.maxSteps s.trail

namespace Training

/-- The quotient of two costs, where it can be taken. -/
def relative (before after : Float) : Float :=
  match Cost.speedup before after with
  | .ok x => x
  | .error _ => 1

variable [Approximator Q] {tc : Toolchain σ} {l l' : Lab σ Q}

/-- The result compares the ends of the walk: its speedup is the quotient of the costs, or one and
flagged if no step succeeded. -/
def Compares (s : Start σ Q) (result : ProgramResult) : Prop :=
  (s.moves = [] → result.speedup = 1 ∧ result.firstStepFailed = true) ∧
    ∀ m₀ mₖ, Walk.Ends s.moves .base m₀ mₖ →
      result.speedup = m₀.cost / mₖ.cost ∧ result.firstStepFailed = false

/-- What a result says of a walk in any case: the base is the one that was known before. -/
structure Reports (s : Start σ Q) (result : ProgramResult) : Prop where
  name : result.program = s.trail.bench.program.name
  steps : result.steps = s.moves.length
  stuck : s.moves = [] → result.speedup = 1 ∧ result.firstStepFailed = true
  moved : s.moves ≠ [] → ∃ base m₀ mₖ, s.trail.bench.program.base = some base ∧
    Walk.Ends s.moves s.trail.bench.program.lineage m₀ mₖ ∧
    result.speedup = relative base.cost mₖ.cost ∧ result.firstStepFailed = false ∧
    (s.trail.bench.program.lineage = .base → s.trail.bench.program.current.isSome →
      base = m₀ ∧ result.speedup = m₀.cost / mₖ.cost)

/-- A result of a walk from a measured base compares its ends. -/
theorem Reports.compares {s : Start σ Q} {result : ProgramResult} (h : Reports s result)
    (lineage : s.trail.bench.program.lineage = .base)
    (measured : s.trail.bench.program.current.isSome) : Compares s result := by
  refine ⟨h.stuck, fun m₀ mₖ hends => ?_⟩
  obtain ⟨⟨first, hfirst, _, hm₀⟩, last, hlast, hmₖ⟩ := hends
  have hsome : s.moves ≠ [] := fun hnone => by simp [hnone] at hfirst
  obtain ⟨base, m₀', mₖ', _, ⟨⟨_, hfirst', _, hm₀'⟩, _, hlast', hmₖ'⟩, _, hflag, hcompared⟩ :=
    h.moved hsome
  obtain rfl := Option.mem_unique hfirst hfirst'
  obtain rfl := Option.mem_unique hlast hlast'
  obtain rfl : m₀ = m₀' := Option.some.inj (hm₀.symm.trans hm₀')
  obtain rfl : mₖ = mₖ' := Option.some.inj (hmₖ.symm.trans hmₖ')
  exact ⟨(hcompared lineage measured).2, hflag⟩

/-- All that is known of a result: it compares the ends of a walk from a measured base. -/
def Accounts (s : Start σ Q) (result : ProgramResult) : Prop :=
  Reports s result ∧ (s.trail.bench.program.lineage = .base →
    s.trail.bench.program.current.isSome → Compares s result)

/-- A result says of its rollout what it came to. -/
theorem reports_of_rollout {s : Start σ Q} {r : Rollout} {t : Trail σ} {result : ProgramResult}
    (hs : Program.Coherent s.trail.bench.program)
    (hr : Walk.rollout s.plan.tools s.plan.catalog s.plan.online s.plan.maxSteps s.trail = .ok r t)
    (h : resultOf s.plan.catalog s.trail.bench.program s.trail.bench.program.baseCost? r =
      .ok result) : Reports s result := by
  obtain ⟨hlength, hends⟩ := Walk.rollout_ends hs hr
  have hempty : r.episode.isEmpty = s.moves.isEmpty := by
    have hlength : r.episode.steps.length = s.moves.length := hlength
    rw [Bool.eq_iff_iff, Episode.isEmpty, List.isEmpty_iff_length_eq_zero,
      List.isEmpty_iff_length_eq_zero, hlength]
  obtain ⟨base, hbase⟩ := Option.isSome_iff_exists.1 hs.base
  have hcost : s.trail.bench.program.baseCost? = some base.cost := by
    rw [Program.baseCost?, hbase, Option.map_some]
  unfold resultOf at h
  extract_lets firstStepFailed speedup at h
  split at h
  · cases h
  cases h
  refine ⟨rfl, hlength, fun hnone => ?_, fun hsome => ?_⟩
  · have hfailed : firstStepFailed = true := by rw [hnone] at hempty; exact hempty
    refine ⟨?_, hfailed⟩
    simp only [speedup, hcost, hfailed, if_true]
    cases r.finalCost <;> rfl
  · have hworked : firstStepFailed = false := by
      rw [← Bool.not_eq_true, show firstStepFailed = s.moves.isEmpty from hempty, List.isEmpty_iff]
      exact hsome
    obtain ⟨m₀, mₖ, hwalk, hfinal, hquotient, hstart⟩ := hends hsome
    have hspeedup : speedup = relative base.cost mₖ.cost := by
      simp only [speedup, hcost, hfinal, hworked, Bool.false_eq_true, if_false]
      rfl
    refine ⟨base, m₀, mₖ, hbase, hwalk, hspeedup, hworked, fun hlineage hmeasured => ?_⟩
    have hhome := hs.home hlineage (hs.measured.2 hmeasured)
    obtain rfl : m₀ = base := hstart base (hhome.trans hbase)
    refine ⟨rfl, ?_⟩
    rw [show _ = speedup from rfl, hspeedup, relative, hquotient]

/-! ## Evaluations -/

theorem of_rolloutNext_ok {role : Role} {i : Nat} {p : Program} {r : Rollout}
    (hp : (programsOf l.trainer role)[i]? = some p) (h : rolloutNext tc role i l = .ok r l') :
    ∃ t, Walk.rollout tc l.trainer.catalog l.trainer.online l.trainer.settings.maxSteps
      ⟨⟨l.world, p⟩, ⟨l.trainer.schedule, l.trainer.rng⟩⟩ = .ok r t := by
  rw [rolloutNext_eq] at h
  obtain ⟨rolled, l₁, hroll, h⟩ := EStateM.of_bind_ok h
  obtain ⟨_, l₂, _, h⟩ := EStateM.of_bind_ok h
  unfold rollout at hroll
  simp only [hp] at hroll
  cases hwalk : Walk.rollout tc l.trainer.catalog l.trainer.online l.trainer.settings.maxSteps
      ⟨⟨l.world, p⟩, ⟨l.trainer.schedule, l.trainer.rng⟩⟩ with
  | ok r' t =>
    rw [hwalk] at hroll
    cases hroll
    cases h
    exact ⟨t, rfl⟩
  | error e t =>
    rw [hwalk] at hroll
    cases hroll
    cases h

/-- The results of held-out programs report of their rollouts, in order. -/
theorem reports_evaluateFrom {n i : Nat} {results : List ProgramResult}
    (hl : Throughout Program.Coherent .heldOut l) (h : evaluateFrom tc n i l = .ok results l') :
    List.Forall₂ Reports (evaluateFromStarts tc n i l) results := by
  induction n generalizing i l results with
  | zero =>
    cases h
    exact .nil
  | succ n ih =>
    rw [evaluateFrom_eq] at h
    unfold evaluateFromStarts
    cases hp : l.trainer.holdout[i]? with
    | none =>
      rw [hp] at h
      cases h
      exact .nil
    | some p =>
      rw [hp] at h
      obtain ⟨r, l₁, hroll, h⟩ := EStateM.of_bind_ok h
      obtain ⟨t, l₂, ht, h⟩ := EStateM.of_bind_ok h
      cases ht
      cases hresult : resultOf l₁.trainer.catalog p p.baseCost? r with
      | error e =>
        rw [hresult] at h
        cases h
      | ok result =>
        rw [hresult] at h
        obtain ⟨rest, l₃, hrest, h⟩ := EStateM.of_bind_ok h
        cases h
        have hkept :=
          ((kept_throughout restores_coherent tc .heldOut).rolloutNext .heldOut i).of_ok hl hroll
        have hothers := ((rolls_rolloutNext tc .heldOut i).of_ok hroll).others
        obtain ⟨trail, hwalk⟩ := of_rolloutNext_ok hp hroll
        simp only [rolloutStarts, programsOf, hp, startsAfter, hroll, hresult]
        refine .cons (reports_of_rollout (hl p (List.mem_of_getElem? hp)) hwalk ?_)
          (ih hkept.1 hrest)
        rw [← hresult, hothers]
        rfl

/-- So do those of a whole evaluation, of rollouts without exploration. -/
theorem reports_evaluate {e : Evaluation} (hl : Throughout Program.Coherent .heldOut l)
    (h : evaluate tc l = .ok e l') : List.Forall₂ Reports (evaluateStarts tc l) e.programs := by
  unfold evaluate at h
  split at h
  · rename_i e' l₁ hheld
    cases h
    unfold evaluateHoldout at hheld
    obtain ⟨t, l₂, ht, hheld⟩ := EStateM.of_bind_ok hheld
    cases ht
    obtain ⟨programs, l₃, hfrom, hheld⟩ := EStateM.of_bind_ok hheld
    cases hheld
    exact reports_evaluateFrom hl hfrom
  · cases h

/-! ## The evaluations of a trainer at work -/

/-- The programs held out fit together, and did so at each evaluation that was recorded. -/
structure Audited (l : Lab σ Q) : Prop where
  held : Throughout Program.Coherent .heldOut l
  recorded : ∀ e ∈ l.trainer.evaluations, ∃ (tc : Toolchain σ) (l₁ l₂ : Lab σ Q),
    Throughout Program.Coherent .heldOut l₁ ∧ evaluate tc l₁ = .ok e l₂

section Audited

variable {f : Trainer Q → Trainer Q}

theorem Audited.of_same (h : Audited l) (holdout : l'.trainer.holdout = l.trainer.holdout)
    (evaluations : l'.trainer.evaluations = l.trainer.evaluations) : Audited l' := by
  refine ⟨fun p hp => h.held p ?_, by rw [evaluations]; exact h.recorded⟩
  have hp : p ∈ l'.trainer.holdout := hp
  rwa [holdout] at hp

theorem audited_modifyTrainer
    (same : ∀ t, (f t).holdout = t.holdout ∧ (f t).evaluations = t.evaluations) :
    Keeps Audited (modifyTrainer f : Training σ Q Unit) :=
  fun l hl => hl.of_same (same l.trainer).1 (same l.trainer).2

theorem audited_ofTrainer {f : Trainer Q → Except TrainingError (α × Trainer Q)}
    (same : ∀ t a t', f t = .ok (a, t') → t'.holdout = t.holdout ∧ t'.evaluations = t.evaluations) :
    Keeps Audited (ofTrainer f : Training σ Q α) := by
  intro l hl
  unfold ofTrainer
  cases hf : f l.trainer with
  | error e => exact hl
  | ok made => exact hl.of_same (same _ _ _ hf).1 (same _ _ _ hf).2

theorem audited_trainer {f : Trainer Q → Training σ Q α} (h : ∀ t, Keeps Audited (f t)) :
    Keeps Audited (trainer >>= f) := fun l => h l.trainer l

theorem audited_pick : Keeps Audited (ofTrainer Trainer.pick : Training σ Q Nat) := by
  refine audited_ofTrainer fun t i t' h => ?_
  obtain ⟨rng, rfl⟩ := Trainer.of_pick h
  exact ⟨rfl, rfl⟩

theorem audited_learn : Keeps Audited (learn : Training σ Q (Option Float32)) := by
  refine audited_ofTrainer fun t loss? t' h => ?_
  cases Trainer.learns_of_ok h <;> exact ⟨rfl, rfl⟩

theorem audited_rolloutNext (tc : Toolchain σ) (i : Nat) :
    Keeps Audited (rolloutNext tc .trained i : Training σ Q Rollout) := by
  intro l hl
  have hrolled := rolls_rolloutNext tc .trained i l
  have hsame : Audited (after (rolloutNext tc .trained i) l) :=
    hl.of_same (hrolled.spared .heldOut (by decide)) (by rw [hrolled.others])
  cases h : rolloutNext tc .trained i l with
  | ok r l' => rwa [after_of_ok h] at hsame
  | error e l' => rwa [after_of_error h] at hsame

theorem audited_evaluate (tc : Toolchain σ) :
    Keeps Audited (evaluate tc : Training σ Q Evaluation) := by
  intro l hl
  have hheld := (kept_throughout restores_coherent tc .heldOut).evaluate l hl.held
  obtain ⟨holdout, rng, _, hafter⟩ := after_evaluate tc l
  cases h : evaluate tc l with
  | ok e l' =>
    rw [h] at hheld
    rw [after_of_ok h] at hafter
    exact ⟨hheld.1, by rw [hafter]; exact hl.recorded⟩
  | error e l' =>
    rw [h] at hheld
    rw [after_of_error h] at hafter
    exact ⟨hheld.1, by rw [hafter]; exact hl.recorded⟩

theorem audited_evaluateIfDue (tc : Toolchain σ) :
    Keeps Audited (evaluateIfDue tc : Training σ Q Unit) := by
  refine audited_trainer fun t => ?_
  split
  · intro l hl
    have hkept := audited_evaluate tc l hl
    cases h : evaluate tc l with
    | error e l' =>
      rw [h] at hkept
      rw [EStateM.bind_of_error h]
      exact hkept
    | ok e l' =>
      rw [h] at hkept
      rw [EStateM.bind_of_ok h]
      refine ⟨hkept.held, fun e' he' => ?_⟩
      rcases List.mem_append.1 he' with he' | he'
      · exact hkept.recorded e' he'
      · rw [List.mem_singleton.1 he']
        exact ⟨tc, l, l', hl.held, h⟩
  · exact keeps_pure ()

theorem audited_finishEpisode (tc : Toolchain σ) :
    Keeps Audited (finishEpisode tc : Training σ Q Unit) := by
  rw [finishEpisode_eq]
  refine Keeps.bind (audited_modifyTrainer fun _ => ⟨rfl, rfl⟩) fun _ => audited_trainer fun t => ?_
  split
  · exact audited_learn.bind fun _ => audited_evaluateIfDue tc
  · exact audited_evaluateIfDue tc

theorem audited_runEpisode (tc : Toolchain σ) :
    Keeps Audited (runEpisode tc : Training σ Q Nat) := by
  rw [runEpisode_eq]
  refine audited_pick.bind fun i => (audited_rolloutNext tc i).bind fun r => ?_
  exact Keeps.bind (audited_modifyTrainer fun _ => ⟨rfl, rfl⟩) fun _ =>
    (audited_finishEpisode tc).bind fun _ => keeps_pure _

theorem audited_finishJobs (tc : Toolchain σ) (results : List (Except TrainingError Unit)) :
    Keeps Audited (finishJobs tc results : Training σ Q Unit) := by
  induction results with
  | nil => exact keeps_pure ()
  | cons result rest ih =>
    cases result with
    | error e => exact keeps_throw e
    | ok _ => exact (audited_finishEpisode tc).bind fun _ => ih

theorem audited_runRoundBy (tc : Toolchain σ) {crew : Crew σ Q} (hc : Orderly crew)
    (workers : Nat) : Keeps Audited (runRoundBy tc crew workers) := by
  intro l hl
  unfold runRoundBy
  cases hpick : (ofTrainer (Trainer.pickSome workers) : Training σ Q (List (Nat × UInt64))) l with
  | error e l₁ =>
    rw [EStateM.bind_of_error hpick]
    unfold ofTrainer at hpick
    split at hpick
    · cases hpick
    · cases hpick
      exact hl
  | ok jobs l₁ =>
    rw [EStateM.bind_of_ok hpick]
    obtain ⟨_, ⟨rng, hrng⟩, results, l₂, hcrew, _, hmustered⟩ := hc.of_pickSome hpick
    rw [EStateM.bind_of_ok hcrew]
    refine audited_finishJobs tc results l₂ (hl.of_same ?_ ?_)
    · rw [hmustered.others, hrng]
    · rw [hmustered.others, hrng]

theorem audited_trainForBy (tc : Toolchain σ) {crew : Crew σ Q} (hc : Orderly crew) (turns : Nat) :
    Keeps Audited (trainForBy tc crew turns) := by
  induction turns with
  | zero => exact keeps_pure ()
  | succ turns ih =>
    unfold trainForBy
    refine audited_trainer fun t => ?_
    split
    · dsimp only
      split
      · exact (audited_runRoundBy tc hc _).bind fun _ => ih
      · exact (audited_runEpisode tc).bind fun _ => ih
    · exact keeps_pure ()

theorem audited_run {act : Act σ Q} (hc : act.IsOrderly) :
    Keeps (Audited : Lab σ Q → Prop) act.run := by
  cases act with
  | episode tc => exact (audited_runEpisode tc).bind fun _ => keeps_pure _
  | training tc crew =>
    have htrain : Keeps (Audited : Lab σ Q → Prop) (trainBy tc crew) := audited_trainer fun t =>
      (audited_trainForBy tc hc _).bind fun _ => audited_trainer fun _ => keeps_pure _
    exact htrain.bind fun _ => keeps_pure _
  | learning => exact audited_learn.bind fun _ => keeps_pure _
  | evaluation tc => exact (audited_evaluate tc).bind fun _ => keeps_pure _
  | syncing => exact audited_modifyTrainer fun _ => ⟨rfl, rfl⟩

/-- It stays so whatever a trainer is asked for, and in whatever worlds. -/
theorem audited_conduct {t : Trainer Q} {acts : List (World σ × Act σ Q)}
    (hc : ∀ act ∈ acts, act.2.IsOrderly) (ht : ∀ w : World σ, Audited ⟨w, t⟩) (w : World σ) :
    Audited ⟨w, conduct t acts⟩ := by
  induction acts generalizing t with
  | nil => exact ht w
  | cons first rest ih =>
    obtain ⟨w₁, act⟩ := first
    refine ih (fun act hact => hc act (List.mem_cons_of_mem _ hact)) fun w₂ => ?_
    have hkept := audited_run (hc _ List.mem_cons_self) ⟨w₁, t⟩ (ht w₁)
    have hafter : Audited (after act.run ⟨w₁, t⟩) := by
      unfold after
      cases h : act.run ⟨w₁, t⟩ with
      | ok _ l' => rwa [h] at hkept
      | error e l' => rwa [h] at hkept
    exact hafter.of_same rfl rfl

end Audited

/-- **Speedups.** Whatever a trainer was asked for before: each result of an evaluation that comes
to an answer is one and flagged if no step of its walk succeeded, and else compares the cost of the
base as it was known before the walk with that of the last variant reached. The base that was known
is the one that the walk started from if the program was measured there, and then the two ends of
the walk are compared. The same is true of all evaluations that were recorded. -/
theorem speedups_compare_known_base {settings : TrainingSettings} {catalog : Catalog}
    {programs : List Program} {q : Q} {t₀ : Trainer Q}
    (ht : Trainer.Built settings catalog programs q t₀)
    (handed : ∀ p ∈ programs, ∃ w : World σ, Program.Reachable ⟨w, p⟩)
    (acts : List (World σ × Act σ Q)) (hc : ∀ act ∈ acts, act.2.IsOrderly) :
    let t := conduct t₀ acts
    (∀ (tc : Toolchain σ) (w : World σ) (e : Evaluation) (l : Lab σ Q),
      evaluate tc ⟨w, t⟩ = .ok e l →
      List.Forall₂ Accounts (evaluateStarts tc ⟨w, t⟩) e.programs) ∧
    ∀ e ∈ t.evaluations, ∃ (tc : Toolchain σ) (l₁ l₂ : Lab σ Q), evaluate tc l₁ = .ok e l₂ ∧
      List.Forall₂ Accounts (evaluateStarts tc l₁) e.programs := by
  intro t
  have haudited (w : World σ) : Audited (⟨w, t⟩ : Lab σ Q) := by
    refine audited_conduct hc (fun w₀ => ⟨fun p hp => ?_, fun e he => ?_⟩) w
    · obtain ⟨w', hreached⟩ := handed p (ht.starts.2 p (List.mem_append_right _ hp))
      exact hreached.coherent
    · rw [ht.eq] at he
      exact absurd he List.not_mem_nil
  have hsound {tc : Toolchain σ} {l l' : Lab σ Q} {e : Evaluation}
      (hl : Throughout Program.Coherent .heldOut l) (he : evaluate tc l = .ok e l') :
      List.Forall₂ Accounts (evaluateStarts tc l) e.programs :=
    (reports_evaluate hl he).imp fun s result h => ⟨h, h.compares⟩
  refine ⟨fun tc w e l he => hsound (haudited w).held he, fun e he => ?_⟩
  cases hacts : acts with
  | nil =>
    have hnone : t.evaluations = [] := by
      rw [show t = conduct t₀ acts from rfl, hacts, conduct, ht.eq]
    rw [hnone] at he
    exact absurd he List.not_mem_nil
  | cons first rest =>
    obtain ⟨tc, l₁, l₂, hheld, hmade⟩ := (haudited first.1).recorded e he
    exact ⟨tc, l₁, l₂, hmade, hsound hheld hmade⟩

/-! A program held out whose base is too old at once. The reset of a first evaluation fails, and a
second one finds that the base costs twice what it cost. -/

def waveringWorld : World Calls :=
  ⟨⟨[(["bench.ll"], .file "; cost 5.0\n".toUTF8), (["held.ll"], .file "; cost 5.0\n".toUTF8)], []⟩,
    0, {}⟩

def wavering : Toolchain Calls :=
  let costing (cost : String) : Reply := .output (.ok s!"SYMVEC1 {cost} 0SYMVEC")
  Playback.toolchain {
    measure := [costing "5.0", costing "5.0", costing "4.0", .output (.exited 1 "" ""),
      costing "10.0", costing "4.0", costing "10.0"]
    transient := .standard
    marker := "SYMVEC" }

/-- The two programs that were opened, and the lab of a trainer for them. -/
def waveringLab? : Option (Program × Program × Lab Calls ConstantScores) :=
  match Program.open wavering ⟨"build", none⟩ "bench.ll" waveringWorld with
  | .error _ _ => none
  | .ok p w =>
    match Program.open wavering ⟨"build", some 0⟩ "held.ll" w with
    | .error _ _ => none
    | .ok p' w' =>
      match Trainer.withSplit { maxSteps := 1 } Program.soloCatalog [p] [p'] constant with
      | .error _ => none
      | .ok t => some (p, p', ⟨w', t⟩)

theorem of_waveringLab? {p p' : Program} {l : Lab Calls ConstantScores}
    (h : waveringLab? = some (p, p', l)) :
    (∀ p'' ∈ [p, p'], (∃ w : World Calls, Program.Reachable ⟨w, p''⟩) ∧ p''.lineage = .base) ∧
      Trainer.Built { maxSteps := 1 } Program.soloCatalog [p, p'] constant l.trainer := by
  unfold waveringLab? at h
  split at h
  · cases h
  rename_i p₁ w₁ ho₁
  split at h
  · cases h
  rename_i p₂ w₂ ho₂
  split at h
  · cases h
  rename_i t ht
  cases h
  refine ⟨fun p'' hp => ?_, .split rfl ht⟩
  rcases List.mem_pair.1 hp with rfl | rfl
  · exact ⟨⟨w₁, .opened ho₁⟩, (Program.atBase_open ho₁).lineage⟩
  · exact ⟨⟨_, .opened ho₂⟩, (Program.atBase_open ho₂).lineage⟩

/-- The lab after a first evaluation. -/
def evaluatedOnce (l : Lab Calls ConstantScores) : Lab Calls ConstantScores :=
  after (Act.evaluation wavering).run l

/-- Whether a speedup is other than the quotient of the costs at the ends of its walk from the
base. -/
def misjudges (s : Start Calls ConstantScores) (result : ProgramResult) : Bool :=
  match s.moves.head?, s.moves.getLast? with
  | some first, some last =>
    match first.before.program.current, last.after.program.current with
    | some m₀, some mₖ => decide (first.before.program.lineage = .base) &&
        decide (result.speedup.toBits ≠ (m₀.cost / mₖ.cost).toBits)
    | _, _ => false
  | _, _ => false

theorem not_compares_of_misjudges {s : Start Calls ConstantScores} {result : ProgramResult}
    (h : misjudges s result = true) : ¬Compares s result := by
  intro hcompares
  unfold misjudges at h
  split at h
  · rename_i first last hfirst hlast
    split at h
    · rename_i m₀ mₖ hm₀ hmₖ
      rw [Bool.and_eq_true, decide_eq_true_eq, decide_eq_true_eq] at h
      have hends : Walk.Ends s.moves .base m₀ mₖ :=
        ⟨⟨first, hfirst, h.1, hm₀⟩, last, hlast, hmₖ⟩
      exact h.2 (by rw [(hcompares.2 m₀ mₖ hends).1])
    · cases h
  · cases h

/-- Whether a second evaluation comes to an answer that misjudges a program. -/
def wavers (l : Lab Calls ConstantScores) : Bool :=
  match evaluate wavering (evaluatedOnce l) with
  | .ok e _ => ((evaluateStarts wavering (evaluatedOnce l)).zip e.programs).any fun (s, result) =>
      misjudges s result
  | .error _ _ => false

theorem waveringLab?_wavers : waveringLab?.any (fun made => wavers made.2.2) = true := by
  decide +kernel

theorem exists_wavering : ∃ (p p' : Program) (l l' : Lab Calls ConstantScores) (e : Evaluation),
    (∀ p'' ∈ [p, p'], (∃ w : World Calls, Program.Reachable ⟨w, p''⟩) ∧ p''.lineage = .base) ∧
    Trainer.Built { maxSteps := 1 } Program.soloCatalog [p, p'] constant l.trainer ∧
    evaluate wavering ⟨(evaluatedOnce l).world,
      conduct l.trainer [(l.world, .evaluation wavering)]⟩ = .ok e l' ∧
    ∃ s result, (s, result) ∈ (evaluateStarts wavering (evaluatedOnce l)).zip e.programs ∧
      misjudges s result = true := by
  obtain ⟨⟨p, p', l⟩, hmade, hwavers⟩ := (Option.any_eq_true ..).1 waveringLab?_wavers
  obtain ⟨handed, built⟩ := of_waveringLab? hmade
  unfold wavers at hwavers
  split at hwavers
  · rename_i e l' he
    obtain ⟨⟨s, result⟩, hmem, hmisjudges⟩ := List.any_eq_true.1 hwavers
    exact ⟨p, p', l, l', e, handed, built, he, s, result, hmem, hmisjudges⟩
  · cases hwavers

/-- A speedup need not compare the ends of its walk, not even for programs that were at their
base. -/
theorem speedup_may_misjudge : ¬∀ (settings : TrainingSettings) (catalog : Catalog)
    (programs : List Program) (q : ConstantScores) (t₀ : Trainer ConstantScores),
    Trainer.Built settings catalog programs q t₀ →
    (∀ p ∈ programs, (∃ w : World Calls, Program.Reachable ⟨w, p⟩) ∧ p.lineage = .base) →
    ∀ acts : List (World Calls × Act Calls ConstantScores), (∀ act ∈ acts, act.2.IsOrderly) →
    ∀ (tc : Toolchain Calls) (w : World Calls) (e : Evaluation) (l : Lab Calls ConstantScores),
      evaluate tc ⟨w, conduct t₀ acts⟩ = .ok e l →
      List.Forall₂ Compares (evaluateStarts tc ⟨w, conduct t₀ acts⟩) e.programs := by
  intro h
  obtain ⟨p, p', l, l', e, handed, built, he, s, result, hmem, hmisjudges⟩ := exists_wavering
  have hall := h _ _ _ _ _ built handed [(l.world, .evaluation wavering)]
    (fun act hact => by rw [List.mem_singleton.1 hact]; trivial) wavering _ e l' he
  exact not_compares_of_misjudges hmisjudges (List.forall₂_zip hall hmem)

theorem speedups_compare_known_base_wavering :
    ∃ (p p' : Program) (l l' : Lab Calls ConstantScores) (e : Evaluation),
    (∀ p'' ∈ [p, p'], ∃ w : World Calls, Program.Reachable ⟨w, p''⟩) ∧
    Trainer.Built { maxSteps := 1 } Program.soloCatalog [p, p'] constant l.trainer ∧
    let w := (evaluatedOnce l).world
    let t := conduct l.trainer [(l.world, .evaluation wavering)]
    evaluate wavering ⟨w, t⟩ = .ok e l' ∧ e.programs ≠ [] ∧
      List.Forall₂ Accounts (evaluateStarts wavering ⟨w, t⟩) e.programs := by
  obtain ⟨p, p', l, l', e, handed, built, he, s, result, hmem, _⟩ := exists_wavering
  have handed : ∀ p'' ∈ [p, p'], ∃ w : World Calls, Program.Reachable ⟨w, p''⟩ :=
    fun p'' hp => (handed p'' hp).1
  refine ⟨p, p', l, l', e, handed, built, he, ?_, ?_⟩
  · exact List.ne_nil_of_mem (List.of_mem_zip hmem).2
  · exact (speedups_compare_known_base built handed [(l.world, .evaluation wavering)]
      (fun act hact => by rw [List.mem_singleton.1 hact]; trivial)).1 wavering _ e l' he

end Training

end PassTuner
