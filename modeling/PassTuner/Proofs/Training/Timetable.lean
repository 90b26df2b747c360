import PassTuner.Proofs.Training.Syncing

/-!
# The timetable of training

After every episode, alone or in a round, the trainer looks at how many there were: a multiple of
one interval is the time of a gradient step, a multiple of another the time of an evaluation. A
gradient step is made only if enough was gathered. While samples stay in the buffer this is not lost
again, so that from some multiple on all of them have their step. Main statement: a trainer that
trains to an end has done exactly the episodes it was to do, with its evaluations and gradient steps
on time.
-/

namespace PassTuner

variable {σ Q α : Type}

/-! ## Multiples -/

/-- The multiples of an interval up to a number, without zero. -/
def multiples (interval n : Nat) : List Nat :=
  (List.range (n / interval)).map fun i => interval * (i + 1)

theorem length_multiples (interval n : Nat) : (multiples interval n).length = n / interval := by
  rw [multiples, List.length_map, List.length_range]

theorem multiples_succ (interval n : Nat) : multiples interval (n + 1) =
    if (n + 1) % interval = 0 then multiples interval n ++ [n + 1] else multiples interval n := by
  unfold multiples
  rw [Nat.succ_div]
  by_cases hdvd : interval ∣ n + 1
  · have hmod := Nat.mod_eq_zero_of_dvd hdvd
    have hdiv : (n + 1) / interval = n / interval + 1 := by rw [Nat.succ_div, if_pos hdvd]
    have hlast : interval * (n / interval + 1) = n + 1 := by
      rw [← hdiv]
      exact Nat.mul_div_cancel' hdvd
    rw [if_pos hdvd, if_pos hmod, List.range_succ, List.map_append, List.map_singleton, hlast]
  · rw [if_neg hdvd, if_neg fun hmod => hdvd (Nat.dvd_of_mod_eq_zero hmod), Nat.add_zero]

theorem isEmpty_eq_of_length {xs ys : List α} (h : xs.length = ys.length) :
    xs.isEmpty = ys.isEmpty := by
  rw [Bool.eq_iff_iff, List.isEmpty_iff_length_eq_zero, List.isEmpty_iff_length_eq_zero, h]

/-! ## Enough for a gradient step -/

theorem Replay.isEmpty_eq_false (b : Replay) : b.isEmpty = false ↔ 0 < b.length := by
  rw [isEmpty, List.isEmpty_eq_false_iff, length, List.length_pos_iff]

theorem Replay.length_le_push (b : Replay) (fits : b.length ≤ b.capacity) (e : Episode) (r : Rng) :
    b.length ≤ (b.push e r).1.length := by
  obtain ⟨⟨kept, hpush, hperm⟩, hevicted⟩ := Replay.pushes fits e r
  have hkept := hperm.length_eq
  rw [List.length_append, hevicted] at hkept
  have hoffered := b.length_offered e
  rw [hpush]
  simp only [length, List.length_append] at *
  omega

namespace Trainer

variable {t t' : Trainer Q}

theorem Ready.pos (h : t.Ready) : 0 < t.buffer.length := t.buffer.isEmpty_eq_false.1 h.1

theorem Ready.mono (h : t.Ready) (settings : t'.settings = t.settings)
    (length : t.buffer.length ≤ t'.buffer.length) : t'.Ready :=
  ⟨t'.buffer.isEmpty_eq_false.2 (Nat.lt_of_lt_of_le h.pos length),
    settings ▸ Nat.le_trans h.2 length⟩

variable [Approximator Q] {loss? : Option Float32}

/-- Settings, split and records are for episodes and evaluations. -/
theorem Learns.records (h : t.Learns loss? t') :
    t'.settings = t.settings ∧ t'.holdout = t.holdout ∧ t'.evaluations = t.evaluations ∧
      t'.episodes = t.episodes := by
  cases h <;> exact ⟨rfl, rfl, rfl, rfl⟩

/-- A buffer that keeps what is sampled is left alone, and a sample of it has something in it. -/
theorem Learns.retaining (h : t.Learns loss? t') (retain : t.buffer.policy = .retain)
    (hbatch : 0 < t.settings.batchSize) :
    t'.buffer = t.buffer ∧ (t.Ready ↔ ∃ loss, loss? = some loss) := by
  cases h with
  | few unready => exact ⟨rfl, fun ready => absurd ready unready, nofun⟩
  | blank ready sampled =>
    have hlength := (Replay.samples_of_ok sampled).length
    have hpos := ready.pos
    rw [List.length_nil] at hlength
    omega
  | @step _ _ _ _ loss _ ready sampled _ _ _ =>
    exact ⟨(Replay.samples_of_ok sampled).retained retain, fun _ => ⟨loss, rfl⟩, fun _ => ready⟩

end Trainer

namespace Training

/-! ## On time -/

variable {settings : TrainingSettings} {held : Bool} {n m : Nat} {ts : List (Trainer Q)}
  {t t' : Trainer Q}

/-- While samples stay in the buffer, the multiples with a gradient step are the last ones, and once
there was one there is enough for the next. -/
structure Retaining (settings : TrainingSettings) (n : Nat) (ts : List (Trainer Q))
    (t : Trainer Q) : Prop where
  policy : t.buffer.policy = .retain
  fits : t.buffer.length ≤ t.buffer.capacity
  suffix : ts.map (·.episodes) <:+ multiples settings.updateInterval n
  ready : ts ≠ [] → t.Ready

/-- The gradient steps that were due up to one episode were considered, and the evaluations that
were due up to another were made. -/
structure Timely (settings : TrainingSettings) (held : Bool) (n m : Nat) (ts : List (Trainer Q))
    (t : Trainer Q) : Prop where
  configured : t.settings = settings
  split : t.holdout.isEmpty = !held
  evaluated : t.evaluations.map (·.episode) =
    if held then multiples settings.evalInterval m else []
  sublist : (ts.map (·.episodes)).Sublist (multiples settings.updateInterval n)
  retaining : settings.sampling = .retain → Retaining settings n ts t

/-- All that was due up to now. -/
abbrev OnTime (settings : TrainingSettings) (held : Bool) (ts : List (Trainer Q)) (t : Trainer Q) :
    Prop := Timely settings held t.episodes t.episodes ts t

/-- Where settings, split and records are as before, and the buffer has no less. -/
theorem Timely.of_kept (h : Timely settings held n m ts t) (hsettings : t'.settings = t.settings)
    (hheld : t'.holdout.length = t.holdout.length) (hevaluations : t'.evaluations = t.evaluations)
    (hbuffer : t.buffer.policy = .retain → t.buffer.length ≤ t.buffer.capacity →
      t'.buffer.policy = .retain ∧ t'.buffer.length ≤ t'.buffer.capacity ∧
        t.buffer.length ≤ t'.buffer.length) : Timely settings held n m ts t' := by
  refine ⟨hsettings.trans h.configured, ?_, ?_, h.sublist, fun hretain => ?_⟩
  · rw [← h.split, isEmpty_eq_of_length hheld]
  · rw [hevaluations, h.evaluated]
  · obtain ⟨policy, fits, suffix, ready⟩ := h.retaining hretain
    obtain ⟨policy', fits', hmore⟩ := hbuffer policy fits
    exact ⟨policy', fits', suffix, fun hts => (ready hts).mono hsettings hmore⟩

/-- Where the buffer is as before too. -/
theorem Timely.of_same_buffer (h : Timely settings held n m ts t)
    (hsettings : t'.settings = t.settings)
    (hheld : t'.holdout.length = t.holdout.length) (hevaluations : t'.evaluations = t.evaluations)
    (hbuffer : t'.buffer = t.buffer) : Timely settings held n m ts t' :=
  h.of_kept hsettings hheld hevaluations fun policy fits => by
    rw [hbuffer]
    exact ⟨policy, fits, Nat.le_refl _⟩

/-- What is shared by workers is still a buffer that keeps what is sampled, with no less in it. -/
theorem pushes_retaining (log : List Event) {b : Replay} (policy : b.policy = .retain)
    (fits : b.length ≤ b.capacity) :
    (log.foldl Event.apply b).policy = .retain ∧
      (log.foldl Event.apply b).length ≤ (log.foldl Event.apply b).capacity ∧
        b.length ≤ (log.foldl Event.apply b).length := by
  induction log generalizing b with
  | nil => exact ⟨policy, fits, Nat.le_refl _⟩
  | cons event log ih =>
    have hone : (event.apply b).policy = .retain ∧
        (event.apply b).length ≤ (event.apply b).capacity ∧ b.length ≤ (event.apply b).length := by
      cases event with
      | selected i => exact ⟨policy, fits, Nat.le_refl _⟩
      | pushed i e rng =>
        refine ⟨?_, ?_, b.length_le_push fits e rng⟩
        · obtain ⟨⟨kept, hpush, _⟩, _⟩ := Replay.pushes fits e rng
          rw [Event.apply, hpush]
          exact policy
        · rw [Event.capacity_apply]
          exact b.length_push_le fits e rng
    obtain ⟨policy', fits', hmore⟩ := hone
    obtain ⟨policy'', fits'', hmore'⟩ := ih policy' fits'
    exact ⟨policy'', fits'', Nat.le_trans hmore hmore'⟩

/-- Selections and pushes are not for the records. -/
theorem Timely.mustered (h : Timely settings held n m ts t) (hm : Mustered t t') :
    Timely settings held n m ts t' := by
  obtain ⟨log, _, hbuffer⟩ := hm.shared
  have hothers := hm.others
  refine h.of_kept (by rw [hothers]) (by rw [hothers]) (by rw [hothers]) ?_
  rw [hbuffer]
  exact pushes_retaining log

/-- Rollouts do not touch the buffer. -/
theorem Timely.rolled {role : Role} (h : Timely settings held n m ts t) (hr : Rolled role t t') :
    Timely settings held n m ts t' := by
  have hholdout : t'.holdout.length = t.holdout.length := by
    cases role with
    | heldOut => exact hr.length
    | trained => exact congrArg List.length (hr.spared .heldOut nofun)
  have hothers := hr.others
  exact h.of_same_buffer (by rw [hothers]) hholdout (by rw [hothers]) (by rw [hothers])

/-- A gradient step that is not due is not considered. -/
theorem Timely.skip (h : Timely settings held n m ts t)
    (hdue : ¬(n + 1) % settings.updateInterval = 0) :
    Timely settings held (n + 1) m ts t := by
  obtain ⟨hsettings, hheld, hevaluated, hsublist, hretaining⟩ := h
  have hsame : multiples settings.updateInterval (n + 1) = multiples settings.updateInterval n := by
    rw [multiples_succ, if_neg hdue]
  refine ⟨hsettings, hheld, hevaluated, by rwa [hsame], fun hretain => ?_⟩
  obtain ⟨policy, fits, suffix, ready⟩ := hretaining hretain
  exact ⟨policy, fits, by rwa [hsame], ready⟩

variable [Approximator Q] {tc : Toolchain σ} {l l' : Lab σ Q}

theorem learnSteps_of_ok {loss? : Option Float32} (h : l.trainer.learned = .ok (loss?, t')) :
    learnSteps l = (loss?.map fun _ => t').toList := by
  rw [learnSteps, h]
  cases loss? <;> rfl

/-- A gradient step that is due is made if there is enough. -/
theorem Timely.learn (h : Timely settings held n m ts l.trainer) (hn : l.trainer.episodes = n + 1)
    (hbatch : 0 < settings.batchSize) (hdue : (n + 1) % settings.updateInterval = 0)
    {loss? : Option Float32} (hl : learn l = .ok loss? l') :
    Timely settings held (n + 1) m (ts ++ learnSteps l) l'.trainer ∧
      l'.trainer.episodes = n + 1 := by
  have hlearned : l.trainer.learned = .ok (loss?, l'.trainer) := (of_ofTrainer_ok hl).1
  have hlearns := Trainer.learns_of_ok hlearned
  obtain ⟨hsettings, hholdout, hevaluations, hepisodes⟩ := hlearns.records
  have hmultiples : multiples settings.updateInterval (n + 1) =
      multiples settings.updateInterval n ++ [n + 1] := by rw [multiples_succ, if_pos hdue]
  rw [hn] at hepisodes
  rw [learnSteps_of_ok hlearned]
  refine ⟨⟨hsettings.trans h.configured, by rw [hholdout, h.split],
    by rw [hevaluations, h.evaluated],
    ?_, fun hretain => ?_⟩, hepisodes⟩
  · rw [hmultiples, List.map_append]
    refine h.sublist.append ?_
    cases loss? with
    | none => exact List.nil_sublist _
    | some loss =>
        exact (hepisodes ▸ List.Sublist.refl _ : List.Sublist [l'.trainer.episodes] [n + 1])
  · obtain ⟨policy, fits, suffix, ready⟩ := h.retaining hretain
    obtain ⟨hbuffer, hmade⟩ := hlearns.retaining policy (by rwa [h.configured])
    have hready (hready : l.trainer.Ready) : l'.trainer.Ready :=
      hready.mono hsettings (by rw [hbuffer])
    cases loss? with
    | some loss =>
      refine ⟨by rw [hbuffer, policy], by rwa [hbuffer], ?_, fun _ => hready (hmade.2 ⟨loss, rfl⟩)⟩
      obtain ⟨unmade, hunmade⟩ := suffix
      refine ⟨unmade, ?_⟩
      rw [hmultiples, List.map_append, ← List.append_assoc, hunmade, ← hepisodes]
      rfl
    | none =>
      -- there was not enough, so there had been no gradient step before
      have hnone : ts = [] := by
        by_contra hsome
        obtain ⟨loss, hmade⟩ := hmade.1 (ready hsome)
        cases hmade
      rw [hnone]
      exact ⟨by rw [hbuffer, policy], by rwa [hbuffer], List.nil_suffix,
        fun hsome => absurd rfl hsome⟩

theorem of_evaluate_ok {e : Evaluation} (h : evaluate tc l = .ok e l') :
    e.episode = l.trainer.episodes := by
  unfold evaluate at h
  split at h
  · rename_i e' l₁ hheld
    cases h
    unfold evaluateHoldout at hheld
    obtain ⟨t, l₂, ht, hheld⟩ := EStateM.of_bind_ok hheld
    cases ht
    obtain ⟨programs, l₃, _, hheld⟩ := EStateM.of_bind_ok hheld
    cases hheld
    rfl
  · cases h

/-- An evaluation that is due is made and recorded. -/
theorem Timely.evaluate (h : Timely settings held n m ts l.trainer)
    (hm : l.trainer.episodes = m + 1) (hl : evaluateIfDue tc l = .ok () l') :
    Timely settings held n (m + 1) ts l'.trainer ∧ l'.trainer.episodes = m + 1 := by
  obtain ⟨hsettings, hsplit, hevaluated, hsublist, hretaining⟩ := h
  unfold evaluateIfDue at hl
  obtain ⟨t, l₁, ht, hl⟩ := EStateM.of_bind_ok hl
  cases ht
  have hdue : (!l.trainer.holdout.isEmpty &&
        decide (l.trainer.episodes % l.trainer.settings.evalInterval = 0)) =
      (held && decide ((m + 1) % settings.evalInterval = 0)) := by
    rw [hsplit, hsettings, hm, Bool.not_not]
  rw [hdue] at hl
  have hnext : (if held then multiples settings.evalInterval (m + 1) else []) =
      (if held then multiples settings.evalInterval m else []) ++
        if (held && decide ((m + 1) % settings.evalInterval = 0)) = true then [m + 1] else [] := by
    cases held with
    | false => rfl
    | true =>
      simp only [if_true, Bool.true_and, decide_eq_true_eq, multiples_succ]
      split
      · rfl
      · rw [List.append_nil]
  split at hl
  · rename_i hyes
    rw [if_pos hyes] at hnext
    obtain ⟨evaluation, ⟨w, t⟩, hevaluate, hl⟩ := EStateM.of_bind_ok hl
    cases hl
    obtain ⟨holdout, rng, hlength, hafter⟩ := after_evaluate tc l
    rw [after_of_ok hevaluate] at hafter
    have hepisode := of_evaluate_ok hevaluate
    obtain rfl := hafter
    refine ⟨⟨hsettings, ?_, ?_, hsublist, fun hretain => ?_⟩, hm⟩
    · rw [← hsplit, isEmpty_eq_of_length hlength]
    · rw [List.map_append, hevaluated, hnext, List.map_singleton, hepisode, hm]
    · obtain ⟨policy, fits, suffix, ready⟩ := hretaining hretain
      exact ⟨policy, fits, suffix, fun hsome => (ready hsome).mono rfl (Nat.le_refl _)⟩
  · rename_i hno
    rw [if_neg hno, List.append_nil] at hnext
    cases hl
    exact ⟨⟨hsettings, hsplit, by rw [hevaluated, hnext], hsublist, hretaining⟩, hm⟩

/-! ## Episodes and rounds -/

variable {crew : Crew σ Q}

/-- An episode is finished with all that is due at it. -/
theorem OnTime.finishEpisode (h : OnTime settings held ts l.trainer)
    (hbatch : 0 < settings.batchSize)
    (hl : finishEpisode tc l = .ok () l') :
    OnTime settings held (ts ++ finishEpisodeSteps l) l'.trainer ∧
      l'.trainer.episodes = l.trainer.episodes + 1 := by
  rw [finishEpisode_eq] at hl
  obtain ⟨_, l₁, hcount, hl⟩ := EStateM.of_bind_ok hl
  cases hcount
  obtain ⟨t, l₂, ht, hl⟩ := EStateM.of_bind_ok hl
  cases ht
  set l₁ : Lab σ Q := ⟨l.world, { l.trainer with episodes := l.trainer.episodes + 1 }⟩ with hl₁
  have hcounted : Timely settings held l.trainer.episodes l.trainer.episodes ts l₁.trainer :=
    h.of_same_buffer rfl rfl rfl rfl
  have hsettings : l₁.trainer.settings = settings := h.configured
  have hsteps : finishEpisodeSteps l =
      if (l.trainer.episodes + 1) % settings.updateInterval = 0 then learnSteps l₁ else [] := by
    rw [← h.configured]
    rfl
  rw [hsteps]
  dsimp only at hl
  have hwhen : l₁.trainer.episodes % l₁.trainer.settings.updateInterval =
      (l.trainer.episodes + 1) % settings.updateInterval := by rw [hsettings]
  by_cases hdue : (l.trainer.episodes + 1) % settings.updateInterval = 0
  · rw [if_pos (hwhen.trans hdue)] at hl
    rw [if_pos hdue]
    obtain ⟨loss?, l₂, hlearn, hl⟩ := EStateM.of_bind_ok hl
    obtain ⟨hlearned, hepisodes⟩ := hcounted.learn rfl hbatch hdue hlearn
    obtain ⟨hdone, hepisodes⟩ := hlearned.evaluate hepisodes hl
    exact ⟨by rw [OnTime, hepisodes]; exact hdone, hepisodes⟩
  · rw [if_neg fun heq => hdue (hwhen ▸ heq)] at hl
    rw [if_neg hdue, List.append_nil]
    obtain ⟨hdone, hepisodes⟩ := (hcounted.skip hdue).evaluate rfl hl
    exact ⟨by rw [OnTime, hepisodes]; exact hdone, hepisodes⟩

/-- Episodes are finished with all that is due at each of them. -/
theorem OnTime.finishJobs (h : OnTime settings held ts l.trainer) (hbatch : 0 < settings.batchSize)
    {results : List (Except TrainingError Unit)} (hl : finishJobs tc results l = .ok () l') :
    OnTime settings held (ts ++ finishJobsSteps tc results l) l'.trainer ∧
      l'.trainer.episodes = l.trainer.episodes + results.length := by
  induction results generalizing l ts with
  | nil =>
    cases hl
    rw [finishJobsSteps, List.append_nil]
    exact ⟨h, rfl⟩
  | cons result rest ih =>
    cases result with
    | error e => cases hl
    | ok _ =>
      obtain ⟨_, l₁, hfirst, hl⟩ := EStateM.of_bind_ok hl
      obtain ⟨hone, hepisodes⟩ := h.finishEpisode hbatch hfirst
      obtain ⟨hall, hepisodes'⟩ := ih hone hl
      have hsteps : finishJobsSteps tc (.ok () :: rest) l =
          finishEpisodeSteps l ++ finishJobsSteps tc rest l₁ := by
        simp only [finishJobsSteps, notedAfter, hfirst]
      rw [hsteps, ← List.append_assoc]
      refine ⟨hall, ?_⟩
      rw [hepisodes', hepisodes, List.length_cons]
      omega

/-- A round does as many episodes as it has workers. -/
theorem OnTime.runRoundBy (h : OnTime settings held ts l.trainer) (hbatch : 0 < settings.batchSize)
    (hc : Orderly crew) {workers : Nat} (hl : runRoundBy tc crew workers l = .ok () l') :
    OnTime settings held (ts ++ runRoundSteps tc crew workers l) l'.trainer ∧
      l'.trainer.episodes = l.trainer.episodes + workers := by
  obtain ⟨jobs, l₁, hpick, hl⟩ := EStateM.of_bind_ok hl
  obtain ⟨results', l₂, hcrew', hfinish⟩ := EStateM.of_bind_ok hl
  obtain ⟨_, ⟨rng, hdrawn⟩, results, l₃, hcrew, hlength, hmustered⟩ := hc.of_pickSome hpick
  rw [hcrew] at hcrew'
  cases hcrew'
  have hepisodes : l₂.trainer.episodes = l.trainer.episodes := by rw [hmustered.others, hdrawn]
  have hpicked : Timely settings held l.trainer.episodes l.trainer.episodes ts l₁.trainer := by
    rw [hdrawn]
    exact h.of_same_buffer rfl rfl rfl rfl
  have hgathered : OnTime settings held ts l₂.trainer := by
    rw [OnTime, hepisodes]
    exact hpicked.mustered hmustered
  obtain ⟨hdone, hepisodes'⟩ := hgathered.finishJobs hbatch hfinish
  have hsteps : runRoundSteps tc crew workers l = finishJobsSteps tc results' l₂ := by
    simp only [runRoundSteps, notedAfter, hpick, hcrew]
  rw [hsteps]
  exact ⟨hdone, by rw [hepisodes', hepisodes, hlength]⟩

/-- A single episode is one episode. -/
theorem OnTime.runEpisode (h : OnTime settings held ts l.trainer) (hbatch : 0 < settings.batchSize)
    {steps : Nat} (hl : runEpisode tc l = .ok steps l') :
    OnTime settings held (ts ++ runEpisodeSteps tc l) l'.trainer ∧
      l'.trainer.episodes = l.trainer.episodes + 1 := by
  rw [runEpisode_eq] at hl
  obtain ⟨i, l₁, hpick, hl⟩ := EStateM.of_bind_ok hl
  obtain ⟨r, l₂, hroll, hl⟩ := EStateM.of_bind_ok hl
  obtain ⟨_, l₃, hpush, hl⟩ := EStateM.of_bind_ok hl
  obtain ⟨_, l₄, hfinish, hl⟩ := EStateM.of_bind_ok hl
  cases hl
  obtain ⟨rng, hdrawn⟩ := Trainer.of_pick (of_ofTrainer_ok hpick).1
  have hrolled := (rolls_rolloutNext tc .trained i).of_ok hroll
  have hepisodes : l₂.trainer.episodes = l.trainer.episodes := by rw [hrolled.others, hdrawn]
  have hpicked : Timely settings held l.trainer.episodes l.trainer.episodes ts l₁.trainer := by
    rw [hdrawn]
    exact h.of_same_buffer rfl rfl rfl rfl
  have hgathered : OnTime settings held ts l₃.trainer := by
    cases hpush
    rw [OnTime, hepisodes]
    exact (hpicked.rolled hrolled).of_kept rfl rfl rfl
      (pushes_retaining [.pushed 0 r.episode l₂.trainer.rng])
  obtain ⟨hdone, hepisodes'⟩ := hgathered.finishEpisode hbatch hfinish
  have hsteps : runEpisodeSteps tc l = finishEpisodeSteps l₃ := by
    simp only [runEpisodeSteps, notedAfter, hpick, hroll, hpush]
  rw [hsteps]
  refine ⟨hdone, hepisodes'.trans ?_⟩
  cases hpush
  rw [hepisodes]

/-- Training does as many episodes as there are still to do; every turn does one at least. -/
theorem OnTime.trainForBy (h : OnTime settings held ts l.trainer) (hbatch : 0 < settings.batchSize)
    (hc : Orderly crew) {turns : Nat} (enough : settings.maxEpisodes ≤ l.trainer.episodes + turns)
    (below : l.trainer.episodes ≤ settings.maxEpisodes)
    (hl : trainForBy tc crew turns l = .ok () l') :
    OnTime settings held (ts ++ trainForSteps tc crew turns l) l'.trainer ∧
      l'.trainer.episodes = settings.maxEpisodes := by
  induction turns generalizing l ts with
  | zero =>
    cases hl
    rw [trainForSteps, List.append_nil]
    exact ⟨h, by omega⟩
  | succ turns ih =>
    unfold Training.trainForBy at hl
    obtain ⟨t, l₀, ht, hl⟩ := EStateM.of_bind_ok hl
    cases ht
    unfold trainForSteps
    rw [h.configured] at hl ⊢
    split
    · rename_i hmore
      rw [if_pos hmore] at hl
      dsimp only at hl
      split
      · rename_i hround
        rw [if_pos hround] at hl
        obtain ⟨_, l₁, hturn, hl⟩ := EStateM.of_bind_ok hl
        obtain ⟨hdone, hepisodes⟩ := h.runRoundBy hbatch hc hturn
        have hsize : roundSize l.trainer ≤ settings.maxEpisodes - l.trainer.episodes := by
          rw [← h.configured]
          exact Nat.min_le_right _ _
        simp only [notedAfter, hturn]
        rw [← List.append_assoc]
        exact ih hdone (by omega) (by omega) hl
      · rename_i hround
        rw [if_neg hround] at hl
        obtain ⟨_, l₁, hturn, hl⟩ := EStateM.of_bind_ok hl
        obtain ⟨hdone, hepisodes⟩ := h.runEpisode hbatch hturn
        simp only [notedAfter, hturn]
        rw [← List.append_assoc]
        exact ih hdone (by omega) (by omega) hl
    · rename_i hmore
      rw [if_neg hmore] at hl
      cases hl
      rw [List.append_nil]
      exact ⟨h, by omega⟩

/-- There is a gradient step for each that is counted, and a loss. -/
theorem Course.counts (h : Course t ts t') :
    t'.gradientSteps = t.gradientSteps + ts.length ∧
      t'.losses.length = t.losses.length + ts.length := by
  induction h with
  | spared same => exact ⟨same.gradientSteps, by rw [same.losses]; rfl⟩
  | step hl =>
    cases Trainer.learns_of_ok hl with
    | step _ _ _ _ _ => exact ⟨rfl, List.length_append⟩
  | trans _ _ first second =>
    rw [List.length_append]
    omega

omit [Approximator Q] in
/-- Before the first episode nothing was due. -/
theorem onTime_start (hsettings : t.settings = settings) (hepisodes : t.episodes = 0)
    (hevaluations : t.evaluations = [])
    (hbuffer : t.buffer = .new settings.bufferCapacity settings.sampling) :
    OnTime settings (!t.holdout.isEmpty) [] t := by
  refine ⟨hsettings, (Bool.not_not _).symm, ?_, List.nil_sublist _, fun hretain => ?_⟩
  · rw [hevaluations, hepisodes]
    cases t.holdout.isEmpty <;> simp [multiples]
  · refine ⟨by rw [hbuffer]; exact hretain, ?_, List.nil_suffix, fun hsome => absurd rfl hsome⟩
    rw [hbuffer]
    exact Nat.zero_le _

/-- **Timetable of training.** When a trainer that was set up has trained to an end, with whatever
crew for its rounds, it has done the episodes it was to do. If it has programs held out, it has
evaluated after the multiples of one interval, in order, else never. It has a loss for each gradient
step; these were made after multiples of another interval, in order and one after each at most. And
if samples stay in the buffer, from some multiple on there was one after each. -/
theorem training_keeps_timetable {catalog : Catalog} {programs : List Program} {q : Q}
    (ht : Trainer.Built settings catalog programs q t) (tc : Toolchain σ) {crew : Crew σ Q}
    (hc : Orderly crew) (w : World σ) {report : TrainingReport}
    (h : trainBy tc crew ⟨w, t⟩ = .ok report l') :
    let steps := (trainSteps tc crew ⟨w, t⟩).map (·.episodes)
    report.episodes = settings.maxEpisodes ∧
    (report.evaluations.map (·.episode) =
      if t.holdout.isEmpty then [] else multiples settings.evalInterval settings.maxEpisodes) ∧
    report.losses.length = report.gradientSteps ∧
    report.gradientSteps = steps.length ∧
    report.gradientSteps ≤ settings.maxEpisodes / settings.updateInterval ∧
    steps.Sublist (multiples settings.updateInterval settings.maxEpisodes) ∧
    (settings.sampling = .retain →
      steps <:+ multiples settings.updateInterval settings.maxEpisodes) := by
  intro steps
  have hfresh := ht.eq
  have hsettings : t.settings = settings := by rw [hfresh]
  have hepisodes : t.episodes = 0 := by rw [hfresh]
  have hnosteps : t.gradientSteps = 0 := by rw [hfresh]
  have hnolosses : t.losses = [] := by rw [hfresh]
  have hstart : OnTime settings (!t.holdout.isEmpty) [] t :=
    onTime_start hsettings hepisodes (by rw [hfresh]) (by rw [hfresh])
  obtain ⟨t₀, l₀, ht₀, h⟩ := EStateM.of_bind_ok h
  cases ht₀
  obtain ⟨_, l₁, hfor, h⟩ := EStateM.of_bind_ok h
  cases h
  have hbatch := (TrainingSettings.valid_of_validate ht.starts.1.valid).batchSize
  obtain ⟨hdone, hall⟩ := hstart.trainForBy hbatch hc (by rw [hepisodes, hsettings]; omega)
    (by rw [hepisodes]; omega) hfor
  rw [List.nil_append, OnTime, hall] at hdone
  obtain ⟨hsteps, hlosses⟩ := ((follows_trainForBy tc hc _).of_ok hfor).counts
  have hcount : l'.trainer.gradientSteps = steps.length := by
    rw [hsteps, hnosteps, Nat.zero_add]
    exact (List.length_map _).symm
  have hbound : steps.length ≤ settings.maxEpisodes / settings.updateInterval := by
    rw [← length_multiples]
    exact hdone.sublist.length_le
  refine ⟨hall, ?_, ?_, hcount, hcount.le.trans hbound, hdone.sublist,
    fun hretain => (hdone.retaining hretain).suffix⟩
  · refine hdone.evaluated.trans ?_
    cases t.holdout.isEmpty <;> rfl
  · change l'.trainer.losses.length = l'.trainer.gradientSteps
    rw [hlosses, hsteps, hnolosses, hnosteps]
    rfl

theorem training_keeps_timetable_graduating : ∃ (l l' : Lab Calls ConstantScores)
    (report : TrainingReport),
    Trainer.Built schooling Program.soloCatalog [paired "one", paired "two", paired "three"]
      constant l.trainer ∧
    trainBy Program.steady (runJobs Program.steady) l = .ok report l' ∧
    report.episodes = 2 ∧ report.gradientSteps = 2 ∧
    (trainSteps Program.steady (runJobs Program.steady) l).map (·.episodes) <:+ multiples 1 2 := by
  obtain ⟨l, l', report, built, htrain, hsteps, _⟩ := exists_graduating
  obtain ⟨hepisodes, _, _, _, _, _, hsuffix⟩ :=
    training_keeps_timetable built Program.steady (orderly_runJobs _) l.world htrain
  exact ⟨l, l', report, built, htrain, hepisodes, hsteps, hsuffix rfl⟩

end Training

end PassTuner
