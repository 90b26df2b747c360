import PassTuner.Proofs.Training.Staying
import PassTuner.Proofs.Training.Timetable

/-!
# When a full buffer is learned from

Valid settings make a batch smaller than the buffer, but say nothing of how many transitions have to
be there before the first gradient step. Main statement: with a full buffer a gradient step is made
just when the transitions that it waits for have room in the buffer, and nothing but the
approximator can be in its way. Settings that wait for more are valid, and with them nothing is ever
learned.
-/

namespace PassTuner

variable {σ Q : Type} [A : Approximator Q] {settings : TrainingSettings} {catalog : Catalog}
  {programs : List Program} {q : Q} {t : Trainer Q} {sound : Q → Prop}

namespace Trainer

/-- With too little in the buffer nothing happens. -/
theorem learned_of_unready (unready : ¬t.Ready) : t.learned = .ok (none, t) := by
  have few : (t.buffer.isEmpty || decide (t.buffer.length < t.settings.learnStarts)) = true := by
    by_contra enough
    simp only [Bool.or_eq_true, decide_eq_true_eq, not_or, Bool.not_eq_true, Nat.not_lt] at enough
    exact unready enough
  rw [learned, if_pos few]

/-- With enough in the buffer no sample is blank. -/
theorem Learns.step_of_ready {loss? : Option Float32} {t' : Trainer Q} (h : t.Learns loss? t')
    (ready : t.Ready) (batch : 0 < t.settings.batchSize) :
    ∃ loss, loss? = some loss ∧ t'.gradientSteps = t.gradientSteps + 1 ∧
      t'.losses = t.losses ++ [loss] := by
  cases h with
  | few unready => exact absurd ready unready
  | blank _ sampled =>
    have taken := (Replay.samples_of_ok sampled).length
    have some := ready.pos
    rw [List.length_nil] at taken
    omega
  | step _ _ _ _ _ => exact ⟨_, rfl, rfl, rfl⟩

omit A in
/-- A buffer that is full has what the trainer waits for, if there is room for as much. -/
theorem Fits.ready_iff {inputs : Nat} (h : t.Fits sound inputs catalog) (full : t.buffer.isFull) :
    t.Ready ↔ t.settings.learnStarts ≤ t.settings.bufferCapacity := by
  have count : t.buffer.length = t.settings.bufferCapacity := (beq_iff_eq.1 full).trans h.capacity
  have some : t.buffer.isEmpty = false :=
    t.buffer.isEmpty_eq_false.2 (count ▸ h.valid.bufferCapacity)
  rw [Ready, some, count]
  exact and_iff_right rfl

end Trainer

namespace Training

/-- **Learning from a full buffer.** Whatever a trainer with valid settings was asked for since it
was set up, in whatever order its workers took turns: with a full buffer it makes one gradient step
and has a loss for it if the transitions that it waits for have room in the buffer, and if not,
nothing happens. It only fails if the approximator makes no step from a batch in range. -/
theorem full_buffer_learns (serves : A.Serves sound (A.inputDim q) (A.outputDim q)) (hq : sound q)
    (ht : t.Built settings catalog programs q) (errands : List (World σ × Errand σ Q))
    (full : (sent t errands).buffer.isFull) (w : World σ) :
    let l : Lab σ Q := ⟨w, sent t errands⟩
    if settings.learnStarts ≤ settings.bufferCapacity then
      (∃ loss l', learn l = .ok (some loss) l' ∧
        l'.trainer.gradientSteps = l.trainer.gradientSteps + 1 ∧
        l'.trainer.losses = l.trainer.losses ++ [loss]) ∨
      learn l = .error .outsideDomain l ∧
        A.Refuses (A.inputDim q) (A.outputDim q) l.trainer.online
    else learn l = .ok none l := by
  intro l
  have hsettings : l.trainer.settings = settings :=
    (settings_sent t errands).trans ht.starts.1.settings
  have fits : l.trainer.Fits sound (A.inputDim q) catalog := fits_sent serves hq ht errands
  rw [ht.outputs] at serves ⊢
  have waits := fits.ready_iff full
  rw [hsettings] at waits
  split
  · rename_i room
    have steps := (learned_concurs serves serves.concurs fits).2
    cases hlearned : l.trainer.learned with
    | ok made =>
      obtain ⟨loss?, t'⟩ := made
      obtain ⟨loss, rfl, step⟩ :=
        (Trainer.learns_of_ok hlearned).step_of_ready (waits.2 room) fits.valid.batchSize
      exact .inl ⟨loss, ⟨w, t'⟩, by simp only [learn, ofTrainer, hlearned, l], step⟩
    | error e =>
      rw [hlearned] at steps
      obtain ⟨rfl, refuses⟩ := steps
      exact .inr ⟨by simp only [learn, ofTrainer, hlearned], refuses⟩
  · rename_i room
    have hlearned := Trainer.learned_of_unready fun ready => room (waits.1 ready)
    simp only [learn, ofTrainer, hlearned]

/-- A new network makes the step, from what workers that took turns gathered. -/
theorem full_buffer_learns_relay : ∃ (programs : List Program) (l : Lab Calls Network),
    Trainer.Built relaying Program.soloCatalog programs schoolNetwork l.trainer ∧
    (sent l.trainer (relayErrands l)).buffer.isFull = true ∧
    ∃ loss l', learn (⟨l.world, sent l.trainer (relayErrands l)⟩ : Lab Calls Network) =
        .ok (some loss) l' ∧
      l'.trainer.gradientSteps = (sent l.trainer (relayErrands l)).gradientSteps + 1 := by
  obtain ⟨programs, l, -, hbuilt, hrelays⟩ := exists_relay
  obtain ⟨-, full, -, unstepped⟩ := of_relays hrelays
  have fits := fits_sent serves_schoolNetwork hasShape_schoolNetwork hbuilt (relayErrands l)
  have learns := full_buffer_learns serves_schoolNetwork hasShape_schoolNetwork hbuilt
    (relayErrands l) full l.world
  rw [if_pos (by decide), inputDim_schoolNetwork, outputDim_schoolNetwork] at learns
  obtain ⟨loss, l', learned, step, -⟩ | ⟨-, refuses⟩ := learns
  · exact ⟨programs, l, hbuilt, full, loss, l', learned, step⟩
  · have last := steps_of_refuses fits.online refuses
    rw [unstepped] at last
    exact absurd last (by decide)

/-! Two transitions in a buffer for two, with a trainer that waits for three. -/

def brimming : TrainingSettings where
  maxSteps := 2
  bufferCapacity := 2
  batchSize := 1
  learnStarts := 3

def brimming? : Option (Trainer ConstantScores) :=
  (Trainer.withSplit brimming Program.soloCatalog [paired "one"] [] constant).toOption

/-- One episode of two steps. -/
def brim : List (World Calls × Errand Calls ConstantScores) :=
  [(pairedWorld, .episode Program.steady)]

theorem brimming?_full : brimming?.any (fun t => (sent t brim).buffer.isFull) = true := by
  decide +kernel

/-- With three transitions to wait for, a full buffer of two is never learned from. -/
theorem full_buffer_may_not_learn : ¬∀ (settings : TrainingSettings) (catalog : Catalog)
    (programs : List Program) (q : ConstantScores) (t : Trainer ConstantScores)
    (errands : List (World Calls × Errand Calls ConstantScores)),
    settings.validate = .ok () → t.Built settings catalog programs q →
    (sent t errands).buffer.isFull = true → ∀ w : World Calls,
    ∃ loss l', learn ⟨w, sent t errands⟩ = .ok (some loss) l' ∧
      l'.trainer.gradientSteps = (sent t errands).gradientSteps + 1 := by
  intro h
  obtain ⟨t, hmade, full⟩ := (Option.any_eq_true ..).1 brimming?_full
  have built : t.Built brimming Program.soloCatalog [paired "one"] constant :=
    .split rfl (by
      unfold brimming? at hmade
      cases hsplit : Trainer.withSplit brimming Program.soloCatalog [paired "one"] [] constant with
      | error e => rw [hsplit] at hmade; cases hmade
      | ok t₀ => rw [hsplit] at hmade; cases hmade; rfl)
  obtain ⟨loss, l', learned, -⟩ := h _ _ _ _ t brim rfl built full pairedWorld
  have unready : ¬(sent t brim).Ready := fun ready => by
    have fits := fits_sent (serves_constantScores 1 1) ⟨rfl, rfl⟩ built brim
    have room := (fits.ready_iff full).1 ready
    rw [settings_sent, built.starts.1.settings] at room
    exact absurd room (by decide)
  simp only [learn, ofTrainer, Trainer.learned_of_unready unready] at learned
  cases learned

end Training

end PassTuner
