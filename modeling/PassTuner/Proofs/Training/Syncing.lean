import PassTuner.Proofs.Training.Acts

/-!
# How far the target lags behind

The target is a copy of the online approximator that was made when the trainer was set up, when it
was asked for one, or after a gradient step whose number is a multiple of the interval. The history
of a trainer holds these moments and all gradient steps in between, each with the trainer right
after it. Main statement: the target is the online approximator of the latest moment of copying,
which is found from the count of gradient steps, and there is a loss for each of these.
-/

namespace PassTuner

variable {σ Q : Type}

namespace Training

/-- What the history of a trainer is made of, each with the trainer right after it. -/
inductive Moment (Q : Type) where
  | setUp (t : Trainer Q)
  | synced (t : Trainer Q)
  | stepped (t : Trainer Q)

namespace Moment

def trainer : Moment Q → Trainer Q
  | .setUp t => t
  | .synced t => t
  | .stepped t => t

/-- The number of a gradient step. -/
def number? : Moment Q → Option Nat
  | .stepped t => some t.gradientSteps
  | _ => none

/-- The target was copied then, as far as that matters after `g` gradient steps: of the gradient
steps the last one counts whose number is a multiple of the interval. -/
def copies (interval g : Nat) : Moment Q → Bool
  | .stepped t => t.gradientSteps = interval * (g / interval)
  | _ => true

end Moment

/-- The latest moment of some kind. -/
def latest? (p : Moment Q → Bool) (ms : List (Moment Q)) : Option (Moment Q) := ms.reverse.find? p

variable [Approximator Q]

def Act.moments : Act σ Q → Lab σ Q → List (Moment Q)
  | .syncing, l => [.synced l.trainer.sync]
  | act, l => (act.steps l).map .stepped

def momentsOf (t : Trainer Q) : List (World σ × Act σ Q) → List (Moment Q)
  | [] => []
  | (w, act) :: rest => act.moments ⟨w, t⟩ ++ momentsOf (after act.run ⟨w, t⟩).trainer rest

/-- The history of a trainer that acts in turn. -/
def history (t : Trainer Q) (acts : List (World σ × Act σ Q)) : List (Moment Q) :=
  .setUp t :: momentsOf t acts

/-- The history explains the target, and has all gradient steps in order. -/
structure Explains (interval : Nat) (ms : List (Moment Q)) (t : Trainer Q) : Prop where
  due : t.settings.syncInterval = interval
  losses : t.losses.length = t.gradientSteps
  numbered : ms.filterMap Moment.number? = List.range' 1 t.gradientSteps
  copied : ∃ m, latest? (Moment.copies interval t.gradientSteps) ms = some m ∧
    t.target = m.trainer.online

section Explains

variable {interval : Nat} {t t' : Trainer Q} {ms : List (Moment Q)} {ts : List (Trainer Q)}

omit [Approximator Q] in
theorem latest?_concat_of_pos {p : Moment Q → Bool} {m : Moment Q} (h : p m = true) :
    latest? p (ms ++ [m]) = some m := by
  rw [latest?, List.reverse_append, List.reverse_singleton, List.singleton_append,
    List.find?_cons_of_pos h]

omit [Approximator Q] in
theorem latest?_concat_of_neg {p : Moment Q → Bool} {m : Moment Q} (h : p m = false) :
    latest? p (ms ++ [m]) = latest? p ms := by
  rw [latest?, List.reverse_append, List.reverse_singleton, List.singleton_append,
    List.find?_cons_of_neg (by rw [h]; exact Bool.false_ne_true)]
  rfl

omit [Approximator Q] in
theorem Explains.spared (h : Explains interval ms t) (same : Spares t t') :
    Explains interval ms t' := by
  refine ⟨?_, ?_, ?_, ?_⟩
  · rw [same.settings, h.due]
  · rw [same.losses, same.gradientSteps, h.losses]
  · rw [same.gradientSteps, h.numbered]
  · rw [same.gradientSteps, same.target]
    exact h.copied

omit [Approximator Q] in
/-- Asked for, a copy is made at once. -/
theorem Explains.sync (h : Explains interval ms t) :
    Explains interval (ms ++ [.synced t.sync]) t.sync := by
  refine ⟨h.due, h.losses, ?_, .synced t.sync, latest?_concat_of_pos rfl, rfl⟩
  rw [List.filterMap_append]
  exact (List.append_nil _).trans h.numbered

omit [Approximator Q] in
/-- Between multiples of the interval the same moment counts. -/
theorem Moment.copies_succ {g : Nat} (h : ¬(g + 1) % interval = 0) :
    copies (Q := Q) interval (g + 1) = copies interval g := by
  have hcount : (g + 1) / interval = g / interval := by
    rw [Nat.succ_div, if_neg fun hdvd => h (Nat.mod_eq_zero_of_dvd hdvd), Nat.add_zero]
  funext m
  cases m <;> simp only [copies, hcount]

omit [Approximator Q] in
/-- A gradient step makes a copy just when its number is a multiple of the interval, and then the
count that the latest copy is found from is this number; else it stays as it was. -/
theorem Explains.step (h : Explains interval ms t) (buffer : Replay) (rng : Rng) (online : Q)
    (loss : Float32) : Explains interval (ms ++ [.stepped (t.stepped buffer rng online loss)])
      (t.stepped buffer rng online loss) := by
  have hsteps : (t.stepped buffer rng online loss).gradientSteps = t.gradientSteps + 1 := rfl
  have htarget : (t.stepped buffer rng online loss).target =
      if (t.gradientSteps + 1) % interval = 0 then online else t.target := by
    rw [← h.due]
    rfl
  have hlast {m : Nat} : Moment.copies interval m (.stepped (t.stepped buffer rng online loss)) =
      decide (t.gradientSteps + 1 = interval * (m / interval)) := rfl
  have hdiv := Nat.div_add_mod (t.gradientSteps + 1) interval
  refine ⟨h.due, ?_, ?_, ?_⟩
  · exact List.length_append.trans (congrArg (· + 1) h.losses)
  · rw [List.filterMap_append, h.numbered, hsteps, List.range'_concat]
    simp [Moment.number?, hsteps, Nat.add_comm]
  · rw [hsteps, htarget]
    by_cases hdue : (t.gradientSteps + 1) % interval = 0
    · rw [if_pos hdue]
      refine ⟨_, latest?_concat_of_pos ?_, rfl⟩
      rw [hlast, decide_eq_true_eq]
      omega
    · obtain ⟨m, hm, hcopy⟩ := h.copied
      rw [if_neg hdue]
      refine ⟨m, ?_, hcopy⟩
      rw [latest?_concat_of_neg, Moment.copies_succ hdue, hm]
      rw [hlast, decide_eq_false_iff_not]
      omega

theorem Explains.course (h : Explains interval ms t) (hc : Course t ts t') :
    Explains interval (ms ++ ts.map .stepped) t' := by
  induction hc generalizing ms with
  | spared same =>
    rw [List.map_nil, List.append_nil]
    exact h.spared same
  | step hl =>
    cases Trainer.learns_of_ok hl with
    | step _ _ _ _ _ => exact h.step _ _ _ _
  | trans _ _ first second =>
    rw [List.map_append, ← List.append_assoc]
    exact second (first h)

theorem Explains.act (h : Explains interval ms t) {act : Act σ Q} (hc : act.IsOrderly)
    (w : World σ) :
    Explains interval (ms ++ act.moments ⟨w, t⟩) (after act.run ⟨w, t⟩).trainer := by
  by_cases hs : act = .syncing
  · rw [hs]
    exact h.sync
  · have hmoments : act.moments ⟨w, t⟩ = (act.steps ⟨w, t⟩).map .stepped := by
      cases act <;> first | rfl | exact absurd rfl hs
    rw [hmoments]
    exact h.course (follows_run hc hs ⟨w, t⟩)

theorem Explains.conduct (h : Explains interval ms t) {acts : List (World σ × Act σ Q)}
    (hc : ∀ act ∈ acts, act.2.IsOrderly) :
    Explains interval (ms ++ momentsOf t acts) (conduct t acts) := by
  induction acts generalizing t ms with
  | nil =>
    unfold momentsOf
    rw [List.append_nil]
    exact h
  | cons first rest ih =>
    unfold momentsOf
    rw [← List.append_assoc]
    exact ih (h.act (hc first List.mem_cons_self) first.1) fun act hact =>
      hc act (List.mem_cons_of_mem _ hact)

end Explains

/-- **Lag of the target.** Whatever a trainer is asked for after it was set up, and however that
ends: its target is the online approximator as it was at the latest moment among these: the set-up,
the copies that were asked for, and the gradient step whose number is the last multiple of the
interval. Its history has all gradient steps, numbered from one on, and it has a loss for each. -/
theorem target_lags {settings : TrainingSettings} {catalog : Catalog} {programs : List Program}
    {q : Q} {t : Trainer Q} (ht : Trainer.Built settings catalog programs q t)
    (acts : List (World σ × Act σ Q)) (hc : ∀ act ∈ acts, act.2.IsOrderly) :
    let t' := conduct t acts
    (∃ m, latest? (Moment.copies settings.syncInterval t'.gradientSteps) (history t acts) = some m ∧
      t'.target = m.trainer.online) ∧
    (history t acts).filterMap Moment.number? = List.range' 1 t'.gradientSteps ∧
    t'.losses.length = t'.gradientSteps := by
  have hstart : Explains settings.syncInterval [.setUp t] t := by
    rw [ht.eq]
    exact ⟨rfl, rfl, rfl, _, rfl, rfl⟩
  have h := hstart.conduct hc
  exact ⟨h.copied, h.numbered, h.losses⟩

theorem target_lags_school : ∃ l : Lab Calls ConstantScores,
    Trainer.Built schooling Program.soloCatalog [paired "one", paired "two", paired "three"]
      constant l.trainer ∧
    (∀ act ∈ (schoolActs l.world : List (World Calls × Act Calls ConstantScores)),
      act.2.IsOrderly) ∧
    let t' := conduct l.trainer (schoolActs l.world)
    t'.losses.length = t'.gradientSteps ∧
      ∃ m, latest? (Moment.copies 2 t'.gradientSteps) (history l.trainer (schoolActs l.world)) =
        some m ∧ t'.target = m.trainer.online := by
  obtain ⟨l, _, _, built, _⟩ := exists_graduating
  have hc := orderly_schoolActs (Q := ConstantScores) l.world
  obtain ⟨hcopied, _, hlosses⟩ := target_lags built (schoolActs l.world) hc
  exact ⟨l, built, hc, hlosses, hcopied⟩

end Training

end PassTuner
