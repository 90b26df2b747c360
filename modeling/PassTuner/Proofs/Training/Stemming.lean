import PassTuner.Proofs.Training.Returning

/-!
# Where the transitions of the buffer stem from

The moves of an errand are the successful steps of its training rollouts, of those that were taken
in; an evaluation has none, and no more has a gradient step. A rollout on its way has gathered a
transition for each of its moves so far, and a turn of it adds what its move shows, if it makes one.
That holds of each worker of a round, whoever takes turns in between. Main statement: the buffer
holds transitions of different moves only.
-/

namespace PassTuner

variable {σ Q α β : Type}

/-! ## Moves of a rollout, turn by turn -/

theorem forall₂_flatMap {R : α → β → Prop} {γ : Type} {f : γ → List α}
    {g : γ → List β} {xs : List γ}
    (h : ∀ x ∈ xs, List.Forall₂ R (f x) (g x)) : List.Forall₂ R (xs.flatMap f) (xs.flatMap g) := by
  induction xs with
  | nil => exact .nil
  | cons x xs ih =>
    exact List.rel_append (h x List.mem_cons_self) (ih fun x hx => h x (List.mem_cons_of_mem _ hx))

namespace Walk

/-- What a rollout has gathered so far, if it has not failed. -/
def Phase.gathered? : Phase → Option Episode
  | .arriving => some (.start [])
  | .choosing _ _ e => some e
  | .acting _ _ e => some e
  | .leaving walked => walked.toOption
  | .gone result => result.toOption

/-- An episode that goes on does so from what is observed. -/
def Phase.Stands (b : Bench σ) : Phase → Prop
  | .choosing _ o e => b.program.state? = some o ∧ e.At o
  | .acting _ _ e => ∃ o, b.program.state? = some o ∧ e.At o
  | _ => True

/-- The move that the next call of a rollout makes, if it makes one. -/
def moveAt (plan : Plan σ Q) (phase : Phase) (b : Bench σ) : List (Move σ) :=
  match phase with
  | .acting _ action _ =>
    match Program.step plan.tools plan.catalog action b with
    | .ok reward b' => [⟨plan.tools, b, action, reward, b'⟩]
    | .error _ _ => []
  | _ => []

/-- The moves of a rollout so far are those that its episode shows. -/
structure Accounted (catalog : Catalog) (ms : List (Move σ)) (phase : Phase)
    (b : Bench σ) : Prop where
  coherent : Program.Coherent b.program
  shown : ∀ e ∈ phase.gathered?, List.Forall₂ (Move.Shows catalog) ms e.transitions
  stands : phase.Stands b

theorem accounted_arriving {catalog : Catalog} {b : Bench σ} (h : Program.Coherent b.program) :
    Accounted catalog [] .arriving b :=
  ⟨h, fun e he => by cases he; exact .nil, trivial⟩

/-- A rollout that failed has no episode to account for. -/
theorem accounted_of_none {catalog : Catalog} (ms : List (Move σ)) {phase : Phase} {b : Bench σ}
    (hb : Program.Coherent b.program) (hnone : phase.gathered? = none) :
    Accounted catalog ms phase b where
  coherent := hb
  shown e he := by
    rw [hnone] at he
    cases he
  stands := by
    cases phase with
    | choosing _ _ _ => cases hnone
    | acting _ _ _ => cases hnone
    | _ => trivial

theorem moveAt_of_gone {plan : Plan σ Q} {phase : Phase} (h : phase.result?.isSome) (b : Bench σ) :
    moveAt plan phase b = [] := by
  cases phase with
  | gone result => rfl
  | _ => cases h

variable [Approximator Q] {plan : Plan σ Q} {phase next : Phase} {t t' : Trail σ}
  {ms : List (Move σ)}

/-- What is accounted for before a call that answers is so afterwards, with the move of the call. -/
theorem Accounted.onward (h : Accounted plan.catalog ms phase t.bench)
    (hnext : onward plan phase t = .ok next t') (hcoherent : Program.Coherent t'.bench.program) :
    Accounted plan.catalog (ms ++ moveAt plan phase t.bench) next t'.bench := by
  cases phase with
  | arriving =>
    rw [show moveAt plan .arriving t.bench = [] from rfl, List.append_nil]
    obtain ⟨observed, t₁, hobserve, hnext⟩ := EStateM.of_bind_ok hnext
    cases observed with
    | none =>
      cases hnext
      exact ⟨hcoherent, h.shown, trivial⟩
    | some o =>
      obtain ⟨p, t₂, hprogram, hnext⟩ := EStateM.of_bind_ok hnext
      cases hprogram
      obtain ⟨_, t₃, hdim, hnext⟩ := EStateM.of_bind_ok hnext
      obtain ⟨_, hsame⟩ := of_checkDim_ok hdim
      rw [hsame] at hnext
      cases hnext
      refine ⟨hcoherent, fun e he => ?_, (state?_of_observe h.coherent hobserve).2,
        Episode.at_start o⟩
      cases he
      exact h.shown (.start []) rfl
  | choosing left o e =>
    cases left with
    | zero =>
      cases hnext
      rw [show moveAt plan (.choosing 0 o e) t.bench = [] from rfl, List.append_nil]
      exact ⟨hcoherent, h.shown, trivial⟩
    | succ left =>
      rw [show moveAt plan (.choosing (left + 1) o e) t.bench = [] from rfl, List.append_nil]
      obtain ⟨action, t₁, hselect, hnext⟩ := EStateM.of_bind_ok hnext
      cases hnext
      obtain ⟨hstate, hat⟩ := h.stands
      exact ⟨hcoherent, h.shown, o, by rwa [bench_of_select hselect], hat⟩
  | acting left action e =>
    obtain ⟨o, hstate, hat⟩ := h.stands
    have hshown := h.shown e rfl
    obtain ⟨ended, t₁, hattempt, hnext⟩ := EStateM.of_bind_ok hnext
    rcases of_attempt_ok hattempt with ⟨reward, b, rfl, hstep, rfl⟩ | ⟨fault, b, rfl, hstep⟩
    · obtain ⟨o', _, hstate', hshows⟩ := Program.shows_of_step h.coherent hstate hstep
      have hmove : moveAt plan (.acting left action e) t.bench =
          [⟨plan.tools, t.bench, action, reward, b⟩] := by simp only [moveAt, hstep]
      obtain ⟨p, t₂, hprogram, hnext⟩ := EStateM.of_bind_ok hnext
      cases hprogram
      simp only [hstate'] at hnext
      obtain ⟨_, t₃, hdim, hnext⟩ := EStateM.of_bind_ok hnext
      obtain ⟨_, hsame⟩ := of_checkDim_ok hdim
      rw [hsame] at hnext
      cases hnext
      refine ⟨hcoherent, fun e' he' => ?_, hstate', hat.record action reward o'⟩
      cases he'
      rw [hat.transitions_record, hmove]
      exact List.rel_append hshown (.cons hshows .nil)
    · have hmove : moveAt plan (.acting left action e) t.bench = [] := by simp only [moveAt, hstep]
      cases hnext
      rw [hmove, List.append_nil]
      exact ⟨hcoherent, h.shown, trivial⟩
  | leaving walked =>
    rw [show moveAt plan (.leaving walked) t.bench = [] from rfl, List.append_nil]
    simp only [Walk.onward, leave] at hnext
    split at hnext <;> cases hnext
    · exact ⟨hcoherent, h.shown, trivial⟩
    · exact accounted_of_none _ hcoherent rfl
    · exact accounted_of_none _ hcoherent rfl
  | gone result =>
    cases hnext
    rw [show moveAt plan (.gone result) t.bench = [] from rfl, List.append_nil]
    exact h

/-- A turn adds its move to what is accounted for. -/
theorem Accounted.turn (h : Accounted plan.catalog ms phase t.bench) (hr : phase.result? = none) :
    Accounted plan.catalog (ms ++ moveAt plan phase t.bench) (turn plan (phase, t)).1
      (turn plan (phase, t)).2.bench := by
  have hcoherent := (stable_returns plan phase t hr ⟨h.coherent, by simp [hr]⟩).1
  cases hnext : Walk.onward plan phase t with
  | ok next t' =>
    rw [turn_of_ok hnext] at hcoherent ⊢
    exact h.onward hnext hcoherent
  | error fault t' =>
    rw [turn_of_error hnext] at hcoherent ⊢
    exact accounted_of_none _ hcoherent rfl

end Walk

namespace Training

/-! ## Moves of a round -/

/-- The move that the next turn of a worker makes, if it makes one. -/
def Worker.moves (plan : Plan σ Q) (w : Worker σ) : List (Move σ) :=
  match w.task with
  | .rolling phase => Walk.moveAt plan phase w.bench
  | .ended _ => []

namespace Round

variable [Approximator Q]

/-- The moves that one of the workers makes in turns of all of them. -/
def movesOf (plan : Plan σ Q) (r : Round σ) (i : Nat) : List Nat → List (Move σ)
  | [] => []
  | j :: turns =>
    (if j = i then r.workers[i]?.toList.flatMap (Worker.moves plan) else []) ++
      movesOf plan (r.turn plan j) i turns

/-- The moves of the rollouts that were taken in, worker by worker. -/
def moves (plan : Plan σ Q) (r : Round σ) (turns : List Nat) : List (Move σ) :=
  (r.run plan turns).workers.zipIdx.flatMap fun (w, i) =>
    if w.gathered?.isSome then r.movesOf plan i turns else []

variable {plan : Plan σ Q} {r : Round σ} {w : Worker σ} {i : Nat} {ms : List (Move σ)}

theorem stepped_accounted (s : Exploration) (h : w.Satisfies (Walk.Accounted plan.catalog ms)) :
    (stepped plan s w).Satisfies (Walk.Accounted plan.catalog (ms ++ w.moves plan)) := by
  unfold stepped
  unfold Worker.Satisfies at h
  cases ht : w.task with
  | ended result =>
    rw [ht] at h
    simpa only [Worker.Satisfies, Worker.moves, ht, List.append_nil] using h
  | rolling phase =>
    rw [ht] at h
    have hmoves : w.moves plan = Walk.moveAt plan phase w.bench := by rw [Worker.moves, ht]
    rw [hmoves]
    dsimp only at h ⊢
    cases hr : phase.result? with
    | none => exact Walk.Accounted.turn (t := w.trail s) h hr
    | some result =>
      rw [Walk.moveAt_of_gone (by simp [hr]), List.append_nil]
      cases phase <;> cases hr
      exact h

/-- Each worker's moves are accounted for, whoever took turns in between. -/
theorem run_accounted (h : ∀ w ∈ r.workers[i]?, w.Satisfies (Walk.Accounted plan.catalog ms))
    (turns : List Nat) : ∀ w ∈ (r.run plan turns).workers[i]?,
      w.Satisfies (Walk.Accounted plan.catalog (ms ++ r.movesOf plan i turns)) := by
  induction turns generalizing r ms with
  | nil =>
    rw [movesOf, List.append_nil]
    exact h
  | cons j turns ih =>
    rw [movesOf, ← List.append_assoc]
    refine ih (r := r.turn plan j) fun w hw => ?_
    rw [workers_turn, List.getElem?_modify] at hw
    obtain ⟨w₀, hw₀, rfl⟩ := Option.map_eq_some_iff.1 hw
    by_cases hj : j = i
    · rw [if_pos hj, if_pos hj, hw₀, Option.toList_some, List.flatMap_singleton]
      exact stepped_accounted _ (h w₀ hw₀)
    · rw [if_neg hj, if_neg hj, List.append_nil]
      exact h w₀ hw₀

/-- What the workers of a round gathered shows their moves. -/
theorem gathered_shown (h : ∀ w ∈ r.workers, w.Satisfies (Walk.Accounted plan.catalog []))
    (turns : List Nat) : List.Forall₂ (Move.Shows plan.catalog) (r.moves plan turns)
      (r.run plan turns).gathered := by
  rw [gathered, moves]
  conv => rhs; rw [← List.zipIdx_map_fst 0 (r.run plan turns).workers, List.flatMap_map]
  refine forall₂_flatMap ?_
  rintro ⟨w, i⟩ hw
  have hw := List.mem_zipIdx_iff_getElem?.1 hw
  have haccounted := run_accounted (fun w₀ hw₀ => h w₀ (List.mem_of_getElem? hw₀)) turns w hw
  rw [List.nil_append] at haccounted
  cases hgathered : w.gathered? with
  | none =>
    simp only [hgathered]
    exact .nil
  | some e =>
    obtain ⟨e', hover⟩ := w.isSome_gathered?.1 (by simp [hgathered])
    rw [Worker.Satisfies, hover] at haccounted
    simp only [Worker.gathered?, hover] at hgathered ⊢
    cases hgathered
    simpa using haccounted.shown e rfl

end Round

/-! ## Moves of an errand -/

variable [Approximator Q]

/-- The moves of a rollout of a training program, unless it is aborted. -/
def rolloutMoves (tc : Toolchain σ) (i : Nat) (rng : Rng) (l : Lab σ Q) : List (Move σ) :=
  match l.trainer.programs[i]? with
  | none => []
  | some p =>
    let t := l.trainer
    let trail : Trail σ := ⟨⟨l.world, p⟩, ⟨t.schedule, rng⟩⟩
    match Walk.rollout tc t.catalog t.online t.settings.maxSteps trail with
    | .ok _ _ => Walk.moves tc t.catalog t.online t.settings.maxSteps trail
    | .error _ _ => []

def runEpisodeMoves (tc : Toolchain σ) : Lab σ Q → List (Move σ) :=
  notedAfter (ofTrainer Trainer.pick) fun i l => rolloutMoves tc i l.trainer.rng l

def Rota.moves (rota : Rota σ Q) (tc : Toolchain σ) (jobs : List (Nat × UInt64)) (l : Lab σ Q) :
    List (Move σ) :=
  (Round.start (rota.worlds jobs l) l.trainer jobs).moves (planOf tc l.trainer) (rota.order jobs l)

def runRoundMoves (tc : Toolchain σ) (rota : Rota σ Q) (workers : Nat) : Lab σ Q → List (Move σ) :=
  notedAfter (ofTrainer (Trainer.pickSome workers)) (rota.moves tc)

/-- The moves of so many turns of training, up to one that fails. -/
def trainForMoves (tc : Toolchain σ) (rota : Rota σ Q) : Nat → Lab σ Q → List (Move σ)
  | 0, _ => []
  | turns + 1, l =>
    if l.trainer.episodes < l.trainer.settings.maxEpisodes then
      if 1 < roundSize l.trainer then
        runRoundMoves tc rota (roundSize l.trainer) l ++
          notedAfter (runRoundBy tc (rota.crew tc) (roundSize l.trainer))
            (fun _ => trainForMoves tc rota turns) l
      else
        runEpisodeMoves tc l ++
          notedAfter (runEpisode tc) (fun _ => trainForMoves tc rota turns) l
    else []

def Errand.moves : Errand σ Q → Lab σ Q → List (Move σ)
  | .episode tc, l => runEpisodeMoves tc l
  | .training tc rota, l => trainForMoves tc rota l.trainer.settings.maxEpisodes l
  | .learning, _ => []
  | .evaluation _, _ => []
  | .syncing, _ => []

/-- The moves of errands in turn. -/
def moves (t : Trainer Q) : List (World σ × Errand σ Q) → List (Move σ)
  | [] => []
  | (w, errand) :: rest =>
    errand.moves ⟨w, t⟩ ++ moves (after errand.run ⟨w, t⟩).trainer rest

/-! ## What moves bring into the buffer -/

/-- The programs of a lab fit together, and its actions are of a catalog. -/
structure Home (catalog : Catalog) (l : Lab σ Q) : Prop where
  catalog : l.trainer.catalog = catalog
  programs : ∀ role, Throughout Program.Coherent role l

/-- What is in the buffer afterwards was there before or is shown by a move of its own. -/
structure Grown (catalog : Catalog) (ms : List (Move σ)) (l l₁ : Lab σ Q) : Prop where
  home : Home catalog l₁
  shown : ∃ xs, List.Forall₂ (Move.Shows catalog) ms xs ∧
    l₁.trainer.buffer.entries.Subperm (l.trainer.buffer.entries ++ xs)

/-- Work brings in what is shown by the moves that are noted for it, however it ends. -/
def Grows (catalog : Catalog) (x : Training σ Q α) (noted : Lab σ Q → List (Move σ)) : Prop :=
  ∀ l, Home catalog l → Grown catalog (noted l) l (after x l)

/-- Work brings nothing in. -/
abbrev Quiet (catalog : Catalog) (x : Training σ Q α) : Prop := Grows catalog x fun _ => []

section Grows

variable {tc : Toolchain σ} {catalog : Catalog} {l l₁ l₂ : Lab σ Q} {ms ms' : List (Move σ)}
  {x : Training σ Q α} {noted : Lab σ Q → List (Move σ)}

omit [Approximator Q] in
theorem Grown.refl (hl : Home catalog l) : Grown catalog [] l l :=
  ⟨hl, [], .nil, by rw [List.append_nil]⟩

omit [Approximator Q] in
theorem Grown.trans (first : Grown catalog ms l l₁) (second : Grown catalog ms' l₁ l₂) :
    Grown catalog (ms ++ ms') l l₂ := by
  obtain ⟨_, xs, hxs, hfirst⟩ := first
  obtain ⟨hl, ys, hys, hsecond⟩ := second
  refine ⟨hl, xs ++ ys, List.rel_append hxs hys, hsecond.trans ?_⟩
  rw [← List.append_assoc]
  exact (List.subperm_append_right ys).2 hfirst

omit [Approximator Q] in
theorem Grows.of_ok (h : Grows catalog x noted) (hl : Home catalog l) {a : α}
    (hx : x l = .ok a l₁) :
    Grown catalog (noted l) l l₁ := by
  have := h l hl
  rwa [after_of_ok hx] at this

omit [Approximator Q] in
theorem Grows.of_error (h : Grows catalog x noted) (hl : Home catalog l) {e : TrainingError}
    (hx : x l = .error e l₁) : Grown catalog (noted l) l l₁ := by
  have := h l hl
  rwa [after_of_error hx] at this

omit [Approximator Q] in
theorem quiet_pure (a : α) : Quiet catalog (pure a : Training σ Q α) := fun _ hl => .refl hl

omit [Approximator Q] in
theorem quiet_throw (e : TrainingError) : Quiet catalog (throw e : Training σ Q α) :=
  fun _ hl => .refl hl

omit [Approximator Q] in
/-- Work goes on quietly after something was brought in. -/
theorem Grown.quietly (first : Grown catalog ms l l₁) (second : Quiet catalog x) :
    Grown catalog ms l (after x l₁) := by
  have h := first.trans (second l₁ first.home)
  rwa [List.append_nil] at h

omit [Approximator Q] in
theorem Grows.bind {f : α → Training σ Q β} {next : α → Lab σ Q → List (Move σ)}
    (first : Grows catalog x noted) (second : ∀ a, Grows catalog (f a) (next a)) :
    Grows catalog (x >>= f) fun l => noted l ++ notedAfter x next l := by
  intro l hl
  cases hx : x l with
  | error e l₁ =>
    simp only [after_bind_of_error hx, notedAfter, hx, List.append_nil]
    exact first.of_error hl hx
  | ok a l₁ =>
    have hfirst := first.of_ok hl hx
    simp only [after_bind_of_ok hx, notedAfter, hx]
    exact hfirst.trans (second a l₁ hfirst.home)

omit [Approximator Q] in
/-- What brings nothing in may come first. -/
theorem Grows.then {f : α → Training σ Q β} {next : α → Lab σ Q → List (Move σ)}
    (first : Quiet catalog x) (second : ∀ a, Grows catalog (f a) (next a)) :
    Grows catalog (x >>= f) (notedAfter x next) :=
  first.bind second

omit [Approximator Q] in
/-- What brings nothing in may come last. -/
theorem Grows.before {f : α → Training σ Q β} (first : Grows catalog x noted)
    (second : ∀ a, Quiet catalog (f a)) : Grows catalog (x >>= f) noted := by
  intro l hl
  have h := first.bind second l hl
  simp only [notedAfter] at h
  cases hx : x l <;> simpa only [hx, List.append_nil] using h

omit [Approximator Q] in
/-- Looking at the trainer comes first. -/
theorem grows_trainer {f : Trainer Q → Training σ Q β}
    (h : ∀ l, Home catalog l → Grown catalog (noted l) l (after (f l.trainer) l)) :
    Grows catalog (trainer >>= f) noted := h

omit [Approximator Q] in
/-- A change of the trainer that leaves programs and catalog alone and takes nothing in. -/
theorem quiet_modifyTrainer {f : Trainer Q → Trainer Q}
    (catalogs : ∀ t, (f t).catalog = t.catalog)
    (programs : ∀ t role, programsOf (f t) role = programsOf t role)
    (entries : ∀ t, (f t).buffer.entries = t.buffer.entries) :
    Quiet catalog (modifyTrainer f : Training σ Q Unit) := by
  intro l hl
  refine ⟨⟨(catalogs _).trans hl.catalog, fun role p hp => ?_⟩, [], .nil, ?_⟩
  · exact hl.programs role p (programs l.trainer role ▸ hp)
  · rw [List.append_nil]
    exact (entries l.trainer).symm ▸ .refl _

omit [Approximator Q] in
/-- The same of what the trainer does by itself. -/
theorem quiet_ofTrainer {f : Trainer Q → Except TrainingError (α × Trainer Q)}
    (h : ∀ t a t', f t = .ok (a, t') → t'.catalog = t.catalog ∧
      (∀ role, programsOf t' role = programsOf t role) ∧
      t'.buffer.entries.Subperm t.buffer.entries) :
    Quiet catalog (ofTrainer f : Training σ Q α) := by
  intro l hl
  unfold after ofTrainer
  cases hf : f l.trainer with
  | error e => exact .refl hl
  | ok made =>
    obtain ⟨a, t'⟩ := made
    obtain ⟨catalogs, programs, entries⟩ := h _ _ _ hf
    refine ⟨⟨catalogs.trans hl.catalog, fun role p hp => ?_⟩, [], .nil, ?_⟩
    · exact hl.programs role p (programs role ▸ hp)
    · rw [List.append_nil]
      exact entries

omit [Approximator Q] in
theorem quiet_pick : Quiet catalog (ofTrainer Trainer.pick : Training σ Q Nat) := by
  refine quiet_ofTrainer fun t i t' h => ?_
  obtain ⟨rng, rfl⟩ := Trainer.of_pick h
  exact ⟨rfl, fun role => by cases role <;> rfl, .refl _⟩

omit [Approximator Q] in
theorem quiet_pickSome (workers : Nat) :
    Quiet catalog (ofTrainer (Trainer.pickSome workers) : Training σ Q (List (Nat × UInt64))) := by
  refine quiet_ofTrainer fun t i t' h => ?_
  obtain ⟨rng, rfl⟩ := Trainer.of_pickSome h
  exact ⟨rfl, fun role => by cases role <;> rfl, .refl _⟩

omit [Approximator Q] in
/-- Pushing an episode brings in what its moves show. -/
theorem grown_push (hl : Home catalog l) {e : Episode} (r rng : Rng)
    (he : List.Forall₂ (Move.Shows catalog) ms e.transitions) :
    Grown catalog ms l
      { l with trainer := { l.trainer with buffer := (l.trainer.buffer.push e r).1, rng } } :=
  ⟨⟨hl.catalog, fun role => by cases role; exacts [hl.programs .trained, hl.programs .heldOut]⟩,
    e.transitions, he, Replay.subperm_push _ _ _⟩

theorem quiet_learn : Quiet catalog (learn : Training σ Q (Option Float32)) := by
  refine quiet_ofTrainer fun t loss? t' h => ?_
  cases Trainer.learns_of_ok h with
  | few _ => exact ⟨rfl, fun _ => rfl, .refl _⟩
  | blank _ sampled => exact ⟨rfl, fun role => by cases role <;> rfl, Replay.subperm_sample sampled⟩
  | step _ sampled _ _ _ =>
    exact ⟨rfl, fun role => by cases role <;> rfl, Replay.subperm_sample sampled⟩

/-! ## Rollouts and evaluations -/

omit [Approximator Q] in
/-- Programs of a lab still fit together after work that keeps them so. -/
theorem home_after {x : Training σ Q α} (hl : Home catalog l)
    (keeps : ∀ role, Fine (Throughout Program.Coherent role) (fun _ => True) x)
    (same : (after x l).trainer.catalog = l.trainer.catalog) : Home catalog (after x l) := by
  refine ⟨same.trans hl.catalog, fun role => ?_⟩
  unfold after
  cases h : x l with
  | ok a l' => exact ((keeps role).of_ok (hl.programs role) h).1
  | error e l' => exact ((keeps role).of_error (hl.programs role) h).1

/-- A rollout by itself brings nothing in. -/
theorem quiet_rolloutNext (tc : Toolchain σ) (role : Role) (i : Nat) :
    Quiet catalog (rolloutNext tc role i : Training σ Q Rollout) := by
  intro l hl
  have hothers := (rolls_rolloutNext tc role i l).others
  refine ⟨home_after hl (fun other =>
    (kept_throughout restores_coherent tc other).rolloutNext role i)
    (by rw [hothers]), [], .nil, ?_⟩
  rw [hothers, List.append_nil]

/-- An evaluation brings nothing in. -/
theorem quiet_evaluate (tc : Toolchain σ) :
    Quiet catalog (evaluate tc : Training σ Q Evaluation) := by
  intro l hl
  obtain ⟨holdout, rng, _, hafter⟩ := after_evaluate tc l
  refine ⟨home_after hl (fun other => (kept_throughout restores_coherent tc other).evaluate)
    (by rw [hafter]), [], .nil, ?_⟩
  rw [hafter, List.append_nil]

theorem quiet_finishEpisode (tc : Toolchain σ) :
    Quiet catalog (finishEpisode tc : Training σ Q Unit) := by
  have hdue : Quiet catalog (evaluateIfDue tc : Training σ Q Unit) :=
    grows_trainer fun l hl => by
      split
      · refine (quiet_evaluate tc).before (fun evaluation => ?_) l hl
        exact quiet_modifyTrainer (fun _ => rfl) (fun _ role => by cases role <;> rfl) fun _ => rfl
      · exact .refl hl
  rw [finishEpisode_eq]
  refine Grows.before ?_ fun _ => grows_trainer fun l hl => ?_
  · exact quiet_modifyTrainer (fun _ => rfl) (fun _ role => by cases role <;> rfl) fun _ => rfl
  · split
    · exact (quiet_learn.before fun _ => hdue) l hl
    · exact hdue l hl

theorem quiet_finishJobs (tc : Toolchain σ) (results : List (Except TrainingError Unit)) :
    Quiet catalog (finishJobs tc results : Training σ Q Unit) := by
  induction results with
  | nil => exact quiet_pure ()
  | cons result rest ih =>
    cases result with
    | error e => exact quiet_throw e
    | ok _ => exact (quiet_finishEpisode tc).before fun _ => ih

/-! ## Episodes -/

/-- A rollout of a training program has a transition for each of its moves. -/
theorem rollout_shown (hl : Home catalog l) {i : Nat} {rng rng' : Rng} {r : Rollout}
    (h : rollout tc .trained i rng l = .ok (.ok r, rng') l₁) :
    List.Forall₂ (Move.Shows catalog) (rolloutMoves tc i rng l) r.episode.transitions := by
  have hprograms : programsOf l.trainer .trained = l.trainer.programs := rfl
  have hcatalog := hl.catalog
  simp only [rollout, hprograms] at h
  cases hp : l.trainer.programs[i]? with
  | none =>
    simp only [hp] at h
    cases h
  | some p =>
    simp only [hp] at h
    simp only [rolloutMoves, hp]
    cases hr : Walk.rollout tc l.trainer.catalog l.trainer.online l.trainer.settings.maxSteps
        ⟨⟨l.world, p⟩, ⟨l.trainer.schedule, rng⟩⟩ with
    | error e trail =>
      simp only [hr] at h
      cases h
    | ok r' trail =>
      simp only [hr] at h
      cases h
      rw [hcatalog] at hr ⊢
      exact Walk.rollout_shown (hl.programs .trained p (List.mem_of_getElem? hp)) hr

/-- A rollout that is aborted has no moves that count. -/
theorem rollout_aborted {i : Nat} {rng : Rng}
    (h : ∀ r rng' l₁, rollout tc .trained i rng l ≠ .ok (.ok r, rng') l₁) :
    rolloutMoves tc i rng l = [] := by
  have hprograms : programsOf l.trainer .trained = l.trainer.programs := rfl
  simp only [rollout, hprograms] at h
  cases hp : l.trainer.programs[i]? with
  | none => simp only [rolloutMoves, hp]
  | some p =>
    simp only [rolloutMoves, hp]
    cases hr : Walk.rollout tc l.trainer.catalog l.trainer.online l.trainer.settings.maxSteps
        ⟨⟨l.world, p⟩, ⟨l.trainer.schedule, rng⟩⟩ with
    | error e trail => rfl
    | ok r trail =>
      simp only [hp, hr] at h
      exact absurd rfl (h _ _ _)

theorem rolloutNext_shown (hl : Home catalog l) {i : Nat} {r : Rollout}
    (h : rolloutNext tc .trained i l = .ok r l₁) :
    List.Forall₂ (Move.Shows catalog) (rolloutMoves tc i l.trainer.rng l)
      r.episode.transitions := by
  rw [rolloutNext_eq] at h
  obtain ⟨⟨result, rng⟩, l₂, hroll, h⟩ := EStateM.of_bind_ok h
  obtain ⟨_, l₃, _, h⟩ := EStateM.of_bind_ok h
  cases result with
  | error e => cases h
  | ok r' =>
    cases h
    exact rollout_shown hl hroll

theorem rolloutNext_aborted {i : Nat} {e : TrainingError}
    (h : rolloutNext tc .trained i l = .error e l₁) :
    rolloutMoves tc i l.trainer.rng l = [] := by
  refine rollout_aborted fun r rng' l₂ hroll => ?_
  rw [rolloutNext_eq, EStateM.bind_of_ok hroll] at h
  cases h

theorem grows_runEpisode (tc : Toolchain σ) :
    Grows catalog (runEpisode tc : Training σ Q Nat) (runEpisodeMoves tc) := by
  rw [runEpisode_eq]
  refine quiet_pick.then fun i l hl => ?_
  cases hroll : rolloutNext tc .trained i l with
  | error e l₁ =>
    rw [after_bind_of_error hroll, rolloutNext_aborted hroll]
    exact (quiet_rolloutNext tc .trained i).of_error hl hroll
  | ok r l₁ =>
    have hrolled := (quiet_rolloutNext tc .trained i).of_ok hl hroll
    rw [after_bind_of_ok hroll]
    exact hrolled.trans ((grown_push hrolled.home _ _ (rolloutNext_shown hl hroll)).quietly
      ((quiet_finishEpisode tc).before fun _ => quiet_pure _))

/-! ## Rounds and training -/

/-- What a crew of workers that take turns brings in. -/
theorem grows_crew (rota : Rota σ Q) (tc : Toolchain σ) (jobs : List (Nat × UInt64)) :
    Grows catalog (rota.crew tc jobs) (rota.moves tc jobs) := by
  intro l hl
  refine ⟨⟨hl.catalog, fun role => ?_⟩, (rota.round tc jobs l).gathered, ?_,
    (rota.logged tc jobs l).subperm_entries⟩
  · exact (throughout_crew (fun _ hp => hp) (fun _ hp => hp.coherent) rota tc role jobs l
      (hl.programs role)).1
  · have hcatalog : (planOf tc l.trainer).catalog = catalog := hl.catalog
    have hshown := @Round.gathered_shown σ Q _ (planOf tc l.trainer)
      (Round.start (rota.worlds jobs l) l.trainer jobs) (fun w hw => ?_) (rota.order jobs l)
    · rwa [hcatalog] at hshown
    · obtain ⟨_, _, _, p, hp, rfl⟩ := Round.of_mem_start hw
      exact Walk.accounted_arriving (hl.programs .trained p hp)

theorem grows_runRoundBy (tc : Toolchain σ) (rota : Rota σ Q) (workers : Nat) :
    Grows catalog (runRoundBy tc (rota.crew tc) workers) (runRoundMoves tc rota workers) :=
  (quiet_pickSome workers).then fun jobs =>
    (grows_crew rota tc jobs).before fun results => quiet_finishJobs tc results

theorem grows_trainForBy (tc : Toolchain σ) (rota : Rota σ Q) (turns : Nat) :
    Grows catalog (trainForBy tc (rota.crew tc) turns) (trainForMoves tc rota turns) := by
  induction turns with
  | zero => exact quiet_pure ()
  | succ turns ih =>
    unfold trainForBy
    refine grows_trainer fun l hl => ?_
    unfold trainForMoves
    split
    · dsimp only
      split
      · exact (grows_runRoundBy tc rota _).bind (fun _ => ih) l hl
      · exact (grows_runEpisode tc).bind (fun _ => ih) l hl
    · exact .refl hl

/-- What an errand brings into the buffer. -/
theorem grows_errand (errand : Errand σ Q) : Grows catalog errand.run errand.moves := by
  cases errand with
  | episode tc => exact (grows_runEpisode tc).before fun _ => quiet_pure _
  | training tc rota =>
    have htrain : Grows catalog (trainBy tc (rota.crew tc))
        fun l => trainForMoves tc rota l.trainer.settings.maxEpisodes l :=
      grows_trainer fun l hl => (grows_trainForBy tc rota _).before
        (fun _ => grows_trainer fun l hl => quiet_pure l.trainer.report l hl) l hl
    exact htrain.before fun _ => quiet_pure _
  | learning => exact quiet_learn.before fun _ => quiet_pure _
  | evaluation tc => exact (quiet_evaluate tc).before fun _ => quiet_pure _
  | syncing =>
    exact quiet_modifyTrainer (fun _ => rfl) (fun _ role => by cases role <;> rfl) fun _ => rfl

theorem grown_sent (errands : List (World σ × Errand σ Q)) {t : Trainer Q} {w : World σ}
    (ht : Home catalog (⟨w, t⟩ : Lab σ Q)) (w' : World σ) :
    Grown catalog (moves t errands) ⟨w, t⟩ ⟨w', sent t errands⟩ := by
  induction errands generalizing t w with
  | nil => exact ⟨⟨ht.catalog, ht.programs⟩, (Grown.refl ht).shown⟩
  | cons first rest ih =>
    obtain ⟨w₁, errand⟩ := first
    have hfirst := grows_errand errand ⟨w₁, t⟩ ⟨ht.catalog, ht.programs⟩
    exact ⟨(ih hfirst.home).home, (hfirst.trans (ih hfirst.home)).shown⟩

end Grows

/-- However a trainer is used that was set up with programs as they come from their operations,
whatever the tools do, and in whatever order the workers of a round take turns: each transition in
its buffer is shown by a successful step of a rollout of a training program that was not aborted,
and no two by the same one. -/
theorem buffer_stems_from_moves {settings : TrainingSettings} {catalog : Catalog}
    {programs : List Program} {q : Q} {t : Trainer Q}
    (ht : Trainer.Built settings catalog programs q t)
    (reached : ∀ p ∈ programs, ∃ w : World σ, Program.Reachable ⟨w, p⟩)
    (errands : List (World σ × Errand σ Q)) :
    ∃ xs, List.Forall₂ (Move.Shows catalog) (moves t errands) xs ∧
      (sent t errands).buffer.entries.Subperm xs := by
  obtain ⟨hs, hgiven⟩ := ht.starts
  have home (w : World σ) : Home catalog (⟨w, t⟩ : Lab σ Q) := by
    refine ⟨hs.catalog, fun role p hp => ?_⟩
    have hmem : p ∈ t.programs ++ t.holdout := by
      cases role with
      | trained => exact List.mem_append_left _ hp
      | heldOut => exact List.mem_append_right _ hp
    obtain ⟨w', hreached⟩ := reached p (hgiven p hmem)
    exact hreached.coherent
  have hempty : t.buffer.entries = [] := by rw [hs.buffer]; rfl
  cases errands with
  | nil => exact ⟨[], .nil, hempty ▸ .refl _⟩
  | cons first rest =>
    obtain ⟨xs, hxs, hsub⟩ := (grown_sent (first :: rest) (home first.1) first.1).shown
    refine ⟨xs, hxs, hsub.trans ?_⟩
    rw [hempty, List.nil_append]

theorem buffer_stems_from_moves_relay : ∃ (programs : List Program) (l : Lab Calls Network),
    (∀ p ∈ programs, ∃ w : World Calls, Program.Reachable ⟨w, p⟩) ∧
    Trainer.Built relaying Program.soloCatalog programs schoolNetwork l.trainer ∧
    (sent l.trainer (relayErrands l)).buffer.entries.length = 2 ∧
    ∃ xs, List.Forall₂ (Move.Shows Program.soloCatalog) (moves l.trainer (relayErrands l)) xs ∧
      (sent l.trainer (relayErrands l)).buffer.entries.Subperm xs := by
  obtain ⟨programs, l, hopened, built, hrelays⟩ := exists_relay
  have reached : ∀ p ∈ programs, ∃ w : World Calls, Program.Reachable ⟨w, p⟩ := fun p hp =>
    let ⟨_, _, _, w', ho⟩ := hopened p hp
    ⟨w', .opened ho⟩
  exact ⟨programs, l, reached, built, (of_relays hrelays).1,
    buffer_stems_from_moves built reached (relayErrands l)⟩

end Training

end PassTuner
