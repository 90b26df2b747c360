import PassTuner.Proofs.Number.Doubles
import PassTuner.Proofs.Training.Conservation
import PassTuner.Proofs.Training.Turns

/-!
# Rounds in any order

What the turns of a round did to schedule and buffer is in its log: one decay for each selection and
one push for each rollout that was taken in. A worker meets the others in the schedule only. So as
long as the schedule stays as it is, a worker is where its own turns have brought it, however those
of the others lie between them; and if the buffer has room for everything, nothing is left that
could depend on the order. Main statement: both, for the workers that a trainer picks.
-/

namespace PassTuner

variable {σ Q : Type}

/-! ## The schedule -/

namespace Exploration

variable {e : Exploration}

/-- At its floor epsilon does not change. -/
theorem decayOnce_of_floor (h : ¬e.floor < e.epsilon) : e.decayOnce = e := by
  rw [decayOnce, if_neg h]

/-- Without decay epsilon does not change. -/
theorem decayOnce_of_zero (h : e.decay = 0) : e.decayOnce = e := by
  by_cases hf : e.floor < e.epsilon
  · have hnot : ¬(e.epsilon < e.floor ∨ e.epsilon.isNaN = true) := by
      rw [Doubles.isNaN_of_lt hf]
      simpa using Doubles.not_lt_of_lt hf
    simp only [decayOnce, if_pos hf, h, Doubles.sub_zero, Bool.or_eq_true, decide_eq_true_eq,
      if_neg hnot]
    rw [← h]
  · exact decayOnce_of_floor hf

end Exploration

theorem Explorer.schedule_of_select? [Approximator Q] {x x' : Explorer} {q : Q} {catalog : Catalog}
    {input : List Float32} {action : ActionId}
    (h : x.select? q catalog input = some (action, x')) : x'.schedule = x.schedule.decayOnce := by
  unfold select? at h
  extract_lets chance random at h
  split at h
  · cases h
    rfl
  · obtain ⟨scores, _, h⟩ := Option.map_eq_some_iff.1 h
    split at h <;> cases h <;> rfl

namespace Walk

/-- The explorer of a trail is a certain one. -/
def LedBy (x : Explorer) (t : Trail σ) : Prop := t.explorer = x

variable {plan : Plan σ Q} {x : Explorer} {t : Trail σ} {phase : Phase}

theorem ledBy_attempt {α : Type} (work : Work σ α) :
    Ends (LedBy x) (fun _ => True) (fun _ => True) (attempt work) := by
  intro t ht
  unfold attempt
  cases work t.bench with
  | ok a b => exact ⟨ht, trivial⟩
  | error e b =>
    dsimp only
    cases e.isStepFailure <;> exact ⟨ht, trivial⟩

theorem sustained_ledBy (plan : Plan σ Q) (x : Explorer) :
    Sustained plan (LedBy x) fun _ => True :=
  ⟨ledBy_attempt _, fun _ => ledBy_attempt _, fun _ _ _ => trivial⟩

theorem ledBy_leave (plan : Plan σ Q) (walked : Except TrainingError Episode) :
    Ends (LedBy x) (fun _ => True) (fun _ => True) (leave plan walked : Walk σ Phase) := by
  intro t ht
  have h := ledBy_attempt (Program.reset plan.tools) t ht
  unfold leave
  cases ha : attempt (Program.reset plan.tools) t with
  | ok _ t' => rwa [ha] at h
  | error _ t' =>
    rw [ha] at h
    cases walked <;> exact h

variable [Approximator Q]

/-- All calls but a selection leave the explorer alone. -/
theorem ledBy_onward (plan : Plan σ Q) (hr : phase.result? = none)
    (hs : ∀ left o e, phase ≠ .choosing (left + 1) o e) :
    Ends (LedBy x) (fun _ => True) (fun _ => True) (onward plan phase : Walk σ Phase) := by
  by_cases hl : ∃ walked, phase = .leaving walked
  · obtain ⟨walked, rfl⟩ := hl
    exact ledBy_leave plan walked
  · exact ((sustained_ledBy plan x).onward hr (fun walked heq => hl ⟨walked, heq⟩)
      fun left o e heq => absurd heq (hs left o e)).mono fun _ _ => trivial

/-- A turn takes something off epsilon if it selected, and else nothing. -/
theorem schedule_turn (plan : Plan σ Q) {y : Phase × Trail σ} (hr : y.1.result? = none) :
    (turn plan y).1.isActing = true ∧
        (turn plan y).2.explorer.schedule = y.2.explorer.schedule.decayOnce ∨
      (turn plan y).1.isActing = false ∧
        (turn plan y).2.explorer.schedule = y.2.explorer.schedule := by
  obtain ⟨phase, t⟩ := y
  by_cases hs : ∃ left o e, phase = .choosing (left + 1) o e
  · obtain ⟨left, o, e, rfl⟩ := hs
    cases hselect : select plan.online plan.catalog o t with
    | error fault t' =>
      have hchoose : onward plan (.choosing (left + 1) o e) t = .error fault t' :=
        EStateM.bind_of_error hselect _
      rw [turn_of_error hchoose]
      unfold select at hselect
      split at hselect <;> cases hselect
      exact .inr ⟨rfl, rfl⟩
    | ok action t' =>
      have hchoose : onward plan (.choosing (left + 1) o e) t = .ok (.acting left action e) t' :=
        EStateM.bind_of_ok hselect _
      rw [turn_of_ok hchoose]
      unfold select at hselect
      split at hselect
      · cases hselect
      · rename_i hsome
        cases hselect
        exact .inl ⟨rfl, Explorer.schedule_of_select? hsome⟩
  · have hs (left : Nat) (o : Observation) (e : Episode) : phase ≠ .choosing (left + 1) o e :=
      fun heq => hs ⟨left, o, e, heq⟩
    have hled := ledBy_onward (x := t.explorer) plan hr hs
    refine .inr ?_
    cases h : onward plan phase t with
    | error fault t' =>
      rw [turn_of_error h]
      exact ⟨rfl, congrArg _ (hled.of_error rfl h).1⟩
    | ok next t' =>
      rw [turn_of_ok h]
      refine ⟨?_, congrArg _ (hled.of_ok rfl h).1⟩
      by_contra hacting
      obtain ⟨left, o, e, heq⟩ :=
        (answers_onward plan phase hr t next t' h).chosen (by simpa using hacting)
      exact hs left o e heq

end Walk

namespace Training

/-! ## What the log says -/

namespace Event

def isSelection : Event → Bool
  | .selected _ => true
  | .pushed .. => false

/-- The buffer after the event. -/
def apply (b : Replay) : Event → Replay
  | .selected _ => b
  | .pushed _ e rng => (b.push e rng).1

/-- The episode that a certain worker pushed. -/
def pushedBy? (i : Nat) : Event → Option Episode
  | .selected _ => none
  | .pushed j e _ => if j = i then some e else none

/-- The transitions that were pushed. -/
def transitions : Event → List Transition
  | .selected _ => []
  | .pushed _ e _ => e.transitions

end Event

/-- The episode that a worker has pushed. -/
def Worker.gathered? (w : Worker σ) : Option Episode :=
  match w.task with
  | .ended (.ok e) => some e
  | _ => none

theorem Worker.isSome_gathered? (w : Worker σ) :
    w.gathered?.isSome ↔ ∃ e, w.task = .ended (.ok e) := by
  cases ht : w.task with
  | rolling phase => simp [gathered?, ht]
  | ended result => cases result <;> simp [gathered?, ht]

namespace Round

/-- All transitions that were pushed, worker by worker. -/
def gathered (r : Round σ) : List Transition :=
  r.workers.flatMap fun w => w.gathered?.toList.flatMap Episode.transitions

/-- All rollouts succeeded and were taken in. -/
def Finished (r : Round σ) : Prop := ∀ w ∈ r.workers, ∃ e, w.task = .ended (.ok e)

instance (r : Round σ) : Decidable r.Finished :=
  decidable_of_iff (∀ w ∈ r.workers, w.gathered?.isSome) <|
    forall₂_congr fun w _ => Worker.isSome_gathered? w

/-- What a round came to, read off its log. -/
structure Logged (r₀ r : Round σ) : Prop where
  schedule : r.schedule = Exploration.decayOnce^[r.log.countP Event.isSelection] r₀.schedule
  buffer : r.buffer = r.log.foldl Event.apply r₀.buffer
  positions : r.workers.map (·.position) = r₀.workers.map (·.position)
  pushed : ∀ i w, r.workers[i]? = some w → r.log.filterMap (Event.pushedBy? i) = w.gathered?.toList
  complete : (r.log.flatMap Event.transitions).Perm r.gathered

variable {r r₀ : Round σ} {w w' : Worker σ} {i : Nat}

theorem perm_flatMap_set {α β : Type} {f : α → List β} {xs : List α} {i : Nat} {x y : α}
    (hx : xs[i]? = some x) (none : f x = []) :
    ((xs.set i y).flatMap f).Perm (xs.flatMap f ++ f y) := by
  induction xs generalizing i with
  | nil => cases hx
  | cons z xs ih =>
    cases i with
    | zero =>
      cases hx
      rw [List.set_cons_zero, List.flatMap_cons, List.flatMap_cons, none, List.nil_append]
      exact List.perm_append_comm
    | succ i =>
      rw [List.set_cons_succ, List.flatMap_cons, List.flatMap_cons, List.append_assoc]
      exact (ih hx).append_left _

theorem positions_set (hw : r.workers[i]? = some w) (same : w'.position = w.position) :
    (r.workers.set i w').map (·.position) = r.workers.map (·.position) := by
  refine List.ext_getElem? fun j => ?_
  rw [List.getElem?_map, List.getElem?_map]
  by_cases hj : j = i
  · subst hj
    rw [List.getElem?_set_self (List.getElem?_eq_some_iff.1 hw).1, hw, Option.map_some, same]
    rfl
  · rw [List.getElem?_set_ne (Ne.symm hj)]

variable [Approximator Q] {plan : Plan σ Q}

/-- Everything that a turn can be. -/
theorem turn_cases (plan : Plan σ Q) (r : Round σ) (i : Nat) : r.turn plan i = r ∨
    ∃ w phase, r.workers[i]? = some w ∧ w.task = .rolling phase ∧
      ((∃ result, r.turn plan i = r.conclude i w result) ∨
        phase.result? = none ∧
          r.turn plan i = r.proceed i w (Walk.turn plan (phase, w.trail r.schedule))) := by
  cases hw : r.workers[i]? with
  | none => exact .inl (by simp only [turn, hw])
  | some w =>
    cases ht : w.task with
    | ended result => exact .inl (turn_of_ended hw ht)
    | rolling phase =>
      refine .inr ⟨w, phase, rfl, ht, ?_⟩
      cases hr : phase.result? with
      | some result => exact .inl ⟨result, turn_of_gone hw ht hr⟩
      | none => exact .inr ⟨rfl, turn_of_rolling hw ht hr⟩

/-- One worker gets further, and the log says what it did. -/
theorem Logged.extend (h : Logged r₀ r) {r' : Round σ} {phase : Walk.Phase} (events : List Event)
    (hw : r.workers[i]? = some w) (ht : w.task = .rolling phase)
    (workers : r'.workers = r.workers.set i w') (log : r'.log = r.log ++ events)
    (position : w'.position = w.position)
    (schedule : r'.schedule = Exploration.decayOnce^[events.countP Event.isSelection] r.schedule)
    (buffer : r'.buffer = events.foldl Event.apply r.buffer)
    (own : events.filterMap (Event.pushedBy? i) = w'.gathered?.toList)
    (others : ∀ j, j ≠ i → events.filterMap (Event.pushedBy? j) = [])
    (transitions : events.flatMap Event.transitions =
      w'.gathered?.toList.flatMap Episode.transitions) : Logged r₀ r' := by
  have hi := (List.getElem?_eq_some_iff.1 hw).1
  have hnone : w.gathered? = none := by simp only [Worker.gathered?, ht]
  refine ⟨?_, ?_, ?_, fun j w₁ hj => ?_, ?_⟩
  · rw [schedule, h.schedule, log, List.countP_append, Nat.add_comm, Function.iterate_add_apply]
  · rw [buffer, h.buffer, log, List.foldl_append]
  · rw [workers, positions_set hw position, h.positions]
  · rw [log, List.filterMap_append]
    rw [workers] at hj
    by_cases hji : j = i
    · subst hji
      rw [List.getElem?_set_self hi] at hj
      cases hj
      rw [h.pushed j w hw, hnone, own, Option.toList_none, List.nil_append]
    · rw [List.getElem?_set_ne (Ne.symm hji)] at hj
      rw [h.pushed j w₁ hj, others j hji, List.append_nil]
  · rw [log, List.flatMap_append, transitions, gathered, workers]
    refine .trans (h.complete.append_right _) (perm_flatMap_set hw ?_).symm
    rw [hnone, Option.toList_none, List.flatMap_nil]

theorem Logged.turn (h : Logged r₀ r) (i : Nat) : Logged r₀ (r.turn plan i) := by
  rcases turn_cases plan r i with hsame | ⟨w, phase, hw, ht, ⟨result, hturn⟩ | ⟨hr, hturn⟩⟩
  · rw [hsame]
    exact h
  · rw [hturn]
    cases result with
    | ok e =>
      refine h.extend [.pushed i e w.rng] hw ht rfl rfl rfl rfl rfl ?_ (fun j hj => ?_) rfl
      · simp only [List.filterMap_cons, Event.pushedBy?, if_true]
        rfl
      · simp only [List.filterMap_cons, Event.pushedBy?, if_neg hj.symm, List.filterMap_nil]
    | error fault => exact h.extend [] hw ht rfl rfl rfl rfl rfl rfl (fun _ _ => rfl) rfl
  · rw [hturn]
    rcases Walk.schedule_turn plan (y := (phase, w.trail r.schedule)) hr with
      ⟨hacting, hschedule⟩ | ⟨hacting, hschedule⟩
    · refine h.extend [.selected i] hw ht rfl ?_ rfl hschedule rfl rfl (fun _ _ => rfl) rfl
      simp only [proceed, hacting, if_true]
    · refine h.extend [] hw ht rfl ?_ rfl hschedule rfl rfl (fun _ _ => rfl) rfl
      simp only [proceed, hacting, Bool.false_eq_true, if_false]

theorem Logged.run (h : Logged r₀ r) (turns : List Nat) : Logged r₀ (r.run plan turns) := by
  induction turns generalizing r with
  | nil => exact h
  | cons i turns ih => exact ih (h.turn i)

/-! ## Independence of the order -/

/-- The schedule is what it was, after all of the turns and after each of them. -/
def Unchanging (plan : Plan σ Q) (r : Round σ) (turns : List Nat) : Prop :=
  ∀ earlier, earlier <+: turns → (r.run plan earlier).schedule = r.schedule

/-- A turn as the worker sees it who takes it. -/
def stepped (plan : Plan σ Q) (schedule : Exploration) (w : Worker σ) : Worker σ :=
  match w.task with
  | .ended _ => w
  | .rolling phase =>
    match phase.result? with
    | some result => w.conclude result
    | none => w.at (Walk.turn plan (phase, w.trail schedule))

theorem workers_turn (plan : Plan σ Q) (r : Round σ) (i : Nat) :
    (r.turn plan i).workers = r.workers.modify i (stepped plan r.schedule) := by
  rw [List.modify_eq_set_getElem?]
  cases hw : r.workers[i]? with
  | none =>
    simp only [turn, hw]
    rfl
  | some w =>
    simp only [turn, hw, Option.map_eq_map, Option.map_some, Option.getD_some]
    cases ht : w.task with
    | ended result =>
      obtain ⟨hi, rfl⟩ := List.getElem?_eq_some_iff.1 hw
      simp only [stepped, ht, List.set_getElem_self]
    | rolling phase =>
      simp only [stepped, ht]
      cases phase.result? <;> rfl

/-- As long as the schedule stays as it is, a worker is where its own turns have brought it. -/
theorem workers_run {turns : List Nat} (still : Unchanging plan r turns) (j : Nat) :
    (r.run plan turns).workers[j]? =
      r.workers[j]?.map (stepped plan r.schedule)^[turns.count j] := by
  induction turns generalizing r with
  | nil =>
    rw [List.count_nil, Function.iterate_zero, Option.map_id_apply]
    rfl
  | cons i turns ih =>
    have hs : (r.turn plan i).schedule = r.schedule := still [i] (List.prefix_append [i] turns)
    have hrest := ih (r := r.turn plan i) fun earlier hearlier =>
      (still (i :: earlier) ((List.prefix_cons_inj i).2 hearlier)).trans hs.symm
    rw [hs, workers_turn, List.getElem?_modify] at hrest
    refine hrest.trans ?_
    rw [List.count_cons]
    by_cases hij : i = j
    · simp only [hij, if_true, beq_self_eq_true, Option.map_eq_map, Option.map_map,
        Function.iterate_succ]
    · simp only [hij, if_false, beq_iff_eq, Nat.add_zero, id_map']

/-- Who is over stays so, so that all ways to the end lead to the same one. -/
theorem iterate_stepped {s : Exploration} {m n : Nat} {a b : Except TrainingError Episode}
    (hm : ((stepped plan s)^[m] w).task = .ended a)
      (hn : ((stepped plan s)^[n] w).task = .ended b) :
    (stepped plan s)^[m] w = (stepped plan s)^[n] w := by
  have hstays {m : Nat} {a : Except TrainingError Episode}
      (hm : ((stepped plan s)^[m] w).task = .ended a) (k : Nat) :
      (stepped plan s)^[k + m] w = (stepped plan s)^[m] w := by
    rw [Function.iterate_add_apply]
    exact Function.iterate_fixed (by simp only [stepped, hm]) k
  rcases Nat.le_total m n with h | h
  · rw [← Nat.sub_add_cancel h, hstays hm]
  · rw [← Nat.sub_add_cancel h, hstays hn]

/-- Two orders that both let all workers succeed leave them all the same. -/
theorem workers_agree {turns turns' : List Nat} (still : Unchanging plan r turns)
    (still' : Unchanging plan r turns') (all : (r.run plan turns).Finished)
    (all' : (r.run plan turns').Finished) :
    (r.run plan turns).workers = (r.run plan turns').workers := by
  refine List.ext_getElem? fun j => ?_
  have hj := workers_run still j
  have hj' := workers_run still' j
  cases hw : r.workers[j]? with
  | none => rw [hj, hj', hw]; rfl
  | some w =>
    rw [hw, Option.map_some] at hj hj'
    obtain ⟨e, he⟩ := all _ (List.mem_of_getElem? hj)
    obtain ⟨e', he'⟩ := all' _ (List.mem_of_getElem? hj')
    rw [hj, hj', iterate_stepped he he']

/-- Where a selection takes nothing off epsilon, the schedule stays as it is. -/
theorem unchanging_of_decayOnce (h : r.schedule.decayOnce = r.schedule)
    (logged : ∀ turns, Logged r (r.run plan turns)) (turns : List Nat) :
    Unchanging plan r turns := fun earlier _ => by
  rw [(logged earlier).schedule]
  exact Function.iterate_fixed h _

end Round

/-! ## Room for everything -/

/-- Where there is room, a push takes nothing away. -/
theorem Event.perm_apply {b : Replay} {event : Event}
    (room : b.length + event.transitions.length ≤ b.capacity) :
    (event.apply b).entries.Perm (b.entries ++ event.transitions) := by
  cases event with
  | selected i => rw [transitions, List.append_nil]; exact .refl _
  | pushed i e rng =>
    have room : b.length + e.transitions.length ≤ b.capacity := room
    have hall : b.offered e = e.transitions := by
      rw [Replay.offered, Replay.lastOf, Nat.sub_eq_zero_of_le (by omega), List.drop_zero]
    obtain ⟨⟨kept, hpush, hkept⟩, hevicted⟩ := Replay.pushes (by omega) e rng (b := b)
    rw [hall, Nat.sub_eq_zero_of_le room] at hevicted
    rw [List.eq_nil_of_length_eq_zero hevicted, List.append_nil] at hkept
    rw [apply, hpush, hall]
    exact hkept.append_right _

theorem Event.capacity_apply (b : Replay) (event : Event) :
    (event.apply b).capacity = b.capacity := by
  cases event with
  | selected i => rfl
  | pushed i e rng => exact Replay.capacity_push b e rng

/-- Where there is room for everything that a log pushes, everything is there in the end. -/
theorem perm_foldl_apply {log : List Event} {b : Replay}
    (room : b.length + (log.flatMap Event.transitions).length ≤ b.capacity) :
    (log.foldl Event.apply b).entries.Perm (b.entries ++ log.flatMap Event.transitions) := by
  induction log generalizing b with
  | nil => rw [List.flatMap_nil, List.append_nil]; exact .refl _
  | cons event log ih =>
    rw [List.flatMap_cons, List.length_append] at room
    have hone := event.perm_apply (b := b) (by omega)
    have hlength : (event.apply b).length = b.length + event.transitions.length :=
      hone.length_eq.trans List.length_append
    have hrest := ih (b := event.apply b) (by rw [hlength, event.capacity_apply]; omega)
    rw [List.foldl_cons, List.flatMap_cons, ← List.append_assoc]
    exact hrest.trans (hone.append_right _)

namespace Round

/-- With room for everything a round adds what its workers gathered, and nothing else changes. -/
theorem Logged.perm_entries {r r₀ : Round σ} (h : Logged r₀ r)
    (room : r₀.buffer.length + r.gathered.length ≤ r₀.buffer.capacity) :
    r.buffer.entries.Perm (r₀.buffer.entries ++ r.gathered) := by
  rw [h.buffer]
  rw [← h.complete.length_eq] at room
  exact (perm_foldl_apply room).trans (h.complete.append_left _)

/-! ## The rounds of a trainer -/

variable {t : Trainer Q}

/-- There is a worker for each job, on the program that the job names. -/
theorem start_spec (worlds : Nat → World σ) (jobs : List (Nat × UInt64))
    (inside : ∀ job ∈ jobs, job.1 < t.programs.length) :
    (start worlds t jobs).workers.map (·.position) = jobs.map (·.1) ∧
      ∀ w ∈ (start worlds t jobs).workers, t.programs[w.position]? = some w.bench.program ∧
        w.task = .rolling .arriving := by
  refine ⟨?_, fun w hw => ?_⟩
  · simp only [start, List.map_filterMap]
    rw [← List.filterMap_eq_map]
    refine List.filterMap_congr fun job hjob => ?_
    rw [List.getElem?_eq_getElem (inside job hjob)]
    rfl
  · obtain ⟨job, _, hjob⟩ := List.mem_filterMap.1 hw
    obtain ⟨p, hp, rfl⟩ := Option.map_eq_some_iff.1 hjob
    exact ⟨hp, rfl⟩

/-- Nothing has happened yet. -/
theorem logged_start (worlds : Nat → World σ) (t : Trainer Q) (jobs : List (Nat × UInt64)) :
    Logged (start worlds t jobs) (start worlds t jobs) := by
  have hnone (w : Worker σ) (hw : w ∈ (start worlds t jobs).workers) : w.gathered? = none := by
    obtain ⟨job, _, hjob⟩ := List.mem_filterMap.1 hw
    obtain ⟨p, _, rfl⟩ := Option.map_eq_some_iff.1 hjob
    rfl
  refine ⟨rfl, rfl, rfl, fun i w hw => ?_, ?_⟩
  · rw [hnone w (List.mem_of_getElem? hw)]
    rfl
  · have : (start worlds t jobs).gathered = [] :=
      List.flatMap_eq_nil_iff.2 fun w hw => by rw [hnone w hw]; rfl
    rw [this]
    exact .nil

end Round

/-- The jobs of a round are on as many distinct programs as there are workers. -/
theorem pickSome_spec {workers : Nat} (t : Trainer Q) (enough : workers ≤ t.programs.length) :
    ∃ jobs rng, t.pickSome workers = .ok (jobs, { t with rng }) ∧
      Rng.Chooses t.programs.length workers (jobs.map (·.1)) := by
  have hchosen := Rng.subset_chooses enough t.rng
  refine ⟨_, _, dif_pos enough, ?_⟩
  rwa [List.map_fst_zip (by rw [hchosen.size, Rng.seeds_length])]

/-- **Rounds in any order.** A trainer picks as many distinct programs as a round has workers. In
whatever order the workers take their turns, and however far they are: each stays on its program;
the schedule is decayed once for each selection that was made; what is in the buffer is the effect
of the pushes; and each worker pushes once at most, when its rollout succeeded, all of the episode.
Without decay, and with epsilon at its floor, a round does not change the schedule; and two rounds
that do not change it, succeed, and find room for everything in the buffer, leave the same
transitions there and the same workers, with the same episodes and so as many steps. -/
theorem rounds_agree [Approximator Q] (tc : Toolchain σ) (worlds : Nat → World σ) (t : Trainer Q)
    (workers : Nat) (enough : workers ≤ t.programs.length) :
    ∃ jobs t', t.pickSome workers = .ok (jobs, t') ∧
      let plan := planOf tc t'
      let r₀ := Round.start worlds t' jobs
      ((r₀.workers.map (·.position)).Nodup ∧ r₀.workers.length = workers ∧
        ∀ w ∈ r₀.workers, t.programs[w.position]? = some w.bench.program) ∧
      (∀ turns, let r := r₀.run plan turns
        r.workers.map (·.position) = r₀.workers.map (·.position) ∧
        r.schedule = Exploration.decayOnce^[r.log.countP Event.isSelection] t.schedule ∧
        r.buffer = r.log.foldl Event.apply t.buffer ∧
        ∀ i w, r.workers[i]? = some w →
          r.log.filterMap (Event.pushedBy? i) = w.gathered?.toList) ∧
      (t.schedule.decay = 0 ∨ ¬t.schedule.floor < t.schedule.epsilon →
        ∀ turns, r₀.Unchanging plan turns) ∧
      ∀ turns turns', r₀.Unchanging plan turns → r₀.Unchanging plan turns' →
        (r₀.run plan turns).Finished → (r₀.run plan turns').Finished →
        t.buffer.length + (r₀.run plan turns).gathered.length ≤ t.buffer.capacity →
        (r₀.run plan turns).buffer.entries.Perm (r₀.run plan turns').buffer.entries ∧
          (r₀.run plan turns).workers = (r₀.run plan turns').workers := by
  obtain ⟨jobs, rng, hpick, hchosen⟩ := pickSome_spec t enough
  refine ⟨jobs, _, hpick, ?_⟩
  intro plan r₀
  have hlogged (turns : List Nat) : Round.Logged r₀ (r₀.run plan turns) :=
    (Round.logged_start worlds _ jobs).run turns
  obtain ⟨hpositions, hprograms⟩ := Round.start_spec (t := { t with rng }) worlds jobs
    fun job hjob => hchosen.below _ (List.mem_map_of_mem hjob)
  refine ⟨⟨?_, ?_, fun w hw => (hprograms w hw).1⟩, fun turns => ?_, fun h => ?_, ?_⟩
  · exact hpositions ▸ hchosen.nodup
  · rw [← List.length_map (·.position), hpositions, hchosen.size]
  · exact ⟨(hlogged turns).positions, (hlogged turns).schedule, (hlogged turns).buffer,
      (hlogged turns).pushed⟩
  · refine Round.unchanging_of_decayOnce ?_ hlogged
    exact h.elim Exploration.decayOnce_of_zero Exploration.decayOnce_of_floor
  · intro turns turns' still still' all all' room
    have hworkers := Round.workers_agree still still' all all'
    have hgathered : (r₀.run plan turns).gathered = (r₀.run plan turns').gathered := by
      rw [Round.gathered, Round.gathered, hworkers]
    have hentries := (hlogged turns).perm_entries room
    have hentries' := (hlogged turns').perm_entries (hgathered ▸ room)
    refine ⟨?_, hworkers⟩
    rw [hgathered] at hentries
    exact hentries.trans hentries'.symm

/-! Two workers with one step each, one after the other and by turns. -/

def paired (name : String) : Program :=
  .fresh name (name ++ ".ll") ⟨"build/" ++ name, name, name ++ ".ll", .empty ""⟩ ⟨"build", none⟩

def pairedTrainer : Trainer ConstantScores where
  settings := { maxSteps := 1 }
  catalog := Program.soloCatalog
  programs := [paired "one", paired "two"]
  holdout := []
  online := constant
  target := constant
  schedule := ⟨0.5, 0, 0⟩
  buffer := .new 8 .retain
  rng := .ofSeed 1

def pairedWorld : World Calls where
  disk := ⟨[(["one.ll"], .file "; cost 10.0\n".toUTF8), (["two.ll"], .file "; cost 9.0\n".toUTF8),
    (["build"], .directory), (["one", "build"], .directory), (["two", "build"], .directory)], []⟩
  clock := 0
  tools := {}

/-- The round of the two in some order. -/
def pairedRun (t : Trainer ConstantScores) (jobs : List (Nat × UInt64)) (turns : List Nat) :
    Round Calls :=
  (Round.start (fun _ => pairedWorld) t jobs).run (planOf Program.steady t) turns

def inTurn : List Nat := List.replicate 6 0 ++ List.replicate 6 1

def byTurns : List Nat := (List.replicate 6 [1, 0]).flatten

/-- Both rounds are finished, with two transitions, and differ in the order of what they shared. -/
def differ (r r' : Round Calls) : Bool :=
  r.Finished ∧ r'.Finished ∧ r.gathered.length = 2 ∧
    r.log.map Event.isSelection ≠ r'.log.map Event.isSelection

theorem pairedRun_differ : (pairedTrainer.pickSome 2).toOption.any (fun (jobs, t) =>
    differ (pairedRun t jobs inTurn) (pairedRun t jobs byTurns)) = true := by
  decide +kernel

theorem rounds_agree_paired : ∃ jobs t, pairedTrainer.pickSome 2 = .ok (jobs, t) ∧
    differ (pairedRun t jobs inTurn) (pairedRun t jobs byTurns) = true ∧
    (pairedRun t jobs inTurn).buffer.entries.Perm (pairedRun t jobs byTurns).buffer.entries ∧
    (pairedRun t jobs inTurn).workers = (pairedRun t jobs byTurns).workers := by
  obtain ⟨jobs, t, hpick, _, _, hstill, hagree⟩ :=
    rounds_agree Program.steady (fun _ => pairedWorld) pairedTrainer 2 (by decide)
  have hdiffer := pairedRun_differ
  simp only [hpick, Except.toOption, Option.any_some] at hdiffer
  -- else the rounds are compared by running them
  unfold pairedRun at hdiffer ⊢
  obtain ⟨all, all', htwo, _⟩ := of_decide_eq_true hdiffer
  have still := hstill (.inl rfl)
  refine ⟨jobs, t, hpick, hdiffer, hagree _ _ (still inTurn) (still byTurns) all all' ?_⟩
  rw [htwo]
  decide

end Training

end PassTuner
