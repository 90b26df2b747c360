import PassTuner.Proofs.Number.Shares
import PassTuner.Proofs.Training.Calls
import PassTuner.Proofs.Training.Conservation

/-!
# Splitting off the programs for evaluation

Programs are drawn out of a list one by one, each draw among those that are left. A draw takes one
program and keeps the others, so that what was drawn and what is left are the programs that there
were. The share is below the number of programs, so that something is left. Main statement: so a
random split has as many programs as the share, loses none and doubles none, and the only list that
it leaves nothing of is the empty one.
-/

namespace PassTuner.Trainer

open BinaryFormat

variable {Q : Type} [Approximator Q] {settings : TrainingSettings} {catalog : Catalog}
  {programs holdout training : List Program} {online : Q} {rng : Rng} {t : Trainer Q} {n : ℕ}

/-! ## Drawing -/

theorem length_drawHoldout (h : n ≤ programs.length) (r : Rng) :
    (drawHoldout n programs h r).1.length = n := by
  induction n generalizing programs r with
  | zero => rfl
  | succ n ih =>
    have hdrawn := Rng.below_lt (Nat.zero_lt_of_lt h) r
    simp only [drawHoldout, List.getElem?_eq_getElem hdrawn, Option.toList_some,
      List.singleton_append, List.length_cons, ih]

/-- By induction on the draws: each takes one program out and keeps the others. -/
theorem perm_drawHoldout (h : n ≤ programs.length) (r : Rng) :
    ((drawHoldout n programs h r).1 ++ (drawHoldout n programs h r).2.1).Perm programs := by
  induction n generalizing programs r with
  | zero => exact .refl _
  | succ n ih =>
    have hdrawn := Rng.below_lt (Nat.zero_lt_of_lt h) r
    simp only [drawHoldout, List.getElem?_eq_getElem hdrawn, Option.toList_some,
      List.cons_append, List.nil_append]
    exact ((ih _ _).cons _).trans (perm_swapRemove hdrawn)

/-! ## The split -/

/-- The programs held out are as many as the share of all programs, which is rounded as a product of
doubles is and then cut off. With the programs to train on they are all programs, and there are some
to train on if there are any. -/
structure Split (programs : List Program) (fraction : Float) (holdout training : List Program) :
    Prop where
  count : ∃ v, double.RoundsTo (programs.length * Doubles.value fraction) v ∧ holdout.length = ⌊v⌋₊
  parts : (holdout ++ training).Perm programs
  remains : programs ≠ [] → training ≠ []

theorem holdoutCount_spec {fraction : Float} (hn : n < 2 ^ 53) (hlow : 0 ≤ fraction)
    (hhigh : fraction < 1) :
    (∃ v, double.RoundsTo (n * Doubles.value fraction) v ∧ holdoutCount n fraction = ⌊v⌋₊) ∧
      holdoutCount n fraction ≤ n ∧ (0 < n → holdoutCount n fraction < n) := by
  obtain ⟨v, hrounds, hcount, hle, hless⟩ := Doubles.share_spec hn hlow hhigh
  have hcount : holdoutCount n fraction = ⌊v⌋₊ := hcount
  refine ⟨⟨v, hrounds, hcount⟩, ?_, fun hpos => ?_⟩
  · rw [hcount]
    exact_mod_cast (Nat.floor_le hrounds.nonneg).trans hle
  · rw [hcount]
    exact_mod_cast (Nat.floor_le hrounds.nonneg).trans_lt (hless hpos)

theorem split_drawHoldout {fraction : Float} (hn : programs.length < 2 ^ 53)
    (hlow : 0 ≤ fraction) (hhigh : fraction < 1)
    (h : holdoutCount programs.length fraction ≤ programs.length) (r : Rng) :
    Split programs fraction (drawHoldout _ programs h r).1 (drawHoldout _ programs h r).2.1 := by
  obtain ⟨hcount, _, hless⟩ := holdoutCount_spec hn hlow hhigh
  have hparts := perm_drawHoldout h r
  refine ⟨by rwa [length_drawHoldout], hparts, fun hne hnone => ?_⟩
  have hlength := hparts.length_eq
  rw [hnone, List.append_nil, length_drawHoldout] at hlength
  exact (hless (List.length_pos_iff.2 hne)).ne hlength

/-! ## Setting up -/

/-- That there are no programs is found out first, and nothing else is called so. -/
theorem noPrograms_iff_of_ofParts :
    ofParts settings catalog training holdout online rng = .error .noPrograms ↔ training = [] := by
  have hdims (expected : ℕ) (ps : List Program) : checkDims expected ps ≠ .error .noPrograms := by
    induction ps with
    | nil => exact nofun
    | cons p rest ih =>
      unfold checkDims
      split
      · split
        · exact nofun
        · exact ih
      · exact ih
  simp only [ofParts, bind, Except.bind, pure, Except.pure, throw, throwThe, MonadExceptOf.throw]
  constructor
  · intro h
    split at h
    · rename_i hnone
      exact List.isEmpty_iff.1 hnone
    split at h
    · cases h
    split at h
    · cases h
    split at h
    · rename_i e he
      cases h
      exact absurd he (hdims _ _)
    · cases h
  · rintro rfl
    rfl

/-- **The split.** Whatever the seed, a trainer is set up with a split of the programs: as many as
the share are held out, none is lost or doubled, and there is something to train on unless there are
no programs at all, which is the only reason to say that there are none. -/
theorem new_splits (settings : TrainingSettings) (catalog : Catalog) (programs : List Program)
    (online : Q) (hvalid : settings.validate = .ok ()) (hn : programs.length < 2 ^ 53) :
    (∃ holdout training rng, Split programs settings.holdoutFraction holdout training ∧
      new settings catalog programs online =
        ofParts settings catalog training holdout online rng ∧
      ∀ t, new settings catalog programs online = .ok t →
        t.holdout = holdout ∧ t.programs = training) ∧
    (new settings catalog programs online = .error .noPrograms ↔ programs = []) := by
  obtain ⟨hlow, hhigh⟩ := (TrainingSettings.valid_of_validate hvalid).holdoutFraction
  have hcount := (holdoutCount_spec hn hlow hhigh).2.1
  have hsplit := split_drawHoldout hn hlow hhigh hcount (.ofSeed settings.seed)
  have hnew : new settings catalog programs online = ofParts settings catalog
      (drawHoldout _ programs hcount (.ofSeed settings.seed)).2.1
      (drawHoldout _ programs hcount (.ofSeed settings.seed)).1 online
      (drawHoldout _ programs hcount (.ofSeed settings.seed)).2.2 := by
    unfold new
    rw [hvalid]
    exact dif_pos hcount
  refine ⟨⟨_, _, _, hsplit, hnew, fun t ht => ?_⟩, ?_⟩
  · rw [hnew] at ht
    obtain ⟨_, hprograms, hholdout⟩ := starts_of_ofParts hvalid ht
    exact ⟨hholdout, hprograms⟩
  · rw [hnew, noPrograms_iff_of_ofParts]
    constructor
    · exact fun hnone => not_not.1 fun hne => hsplit.remains hne hnone
    · rintro rfl
      exact (List.append_eq_nil_iff.1 hsplit.parts.eq_nil).2

/-- A share just below one leaves one program of three. -/
def keepingMost : TrainingSettings := { holdoutFraction := 0.9999999999999999 }

def untouched (name : String) : Program where
  name
  source := name
  cache := ⟨"build", name, name, .empty ""⟩
  settings := .standard
  lineage := .base
  stage := .unbuilt
  base := none
  current := none
  stats := {}

def threePrograms : List Program := ["a.ll", "b.ll", "c.ll"].map untouched

theorem new_splits_keepingMost : ∃ holdout training,
    Split threePrograms keepingMost.holdoutFraction holdout training ∧
    holdout.length = 2 ∧ training.length = 1 := by
  obtain ⟨⟨holdout, training, _, hsplit, _⟩, _⟩ :=
    new_splits keepingMost ⟨["--a"], by decide, by decide, by decide⟩ threePrograms
      (⟨1, [0], [], true⟩ : ConstantScores) rfl (by decide)
  refine ⟨holdout, training, hsplit, ?_⟩
  have hvalue : Doubles.value keepingMost.holdoutFraction = 9007199254740991 / 2 ^ 53 := by
    have hunpack : keepingMost.holdoutFraction.toModel.unpack =
        .finite .positive 9007199254740991 (-53) (by decide) := rfl
    unfold Doubles.value
    rw [hunpack]
    norm_num [Float.Model.UnpackedFloat.Sign.apply]
  obtain ⟨v, hrounds, hcount⟩ := hsplit.count
  have htwo : (2 : ℕ) ≤ v := by
    refine hrounds.natCast_le (by decide) Doubles.minExponent_le_double ?_
    rw [hvalue, show threePrograms.length = 3 from rfl]
    norm_num
  have hmost : 2 ≤ holdout.length := hcount ▸ Nat.le_floor htwo
  have hsome : 0 < training.length := List.length_pos_iff.2 (hsplit.remains (by decide))
  have hall := hsplit.parts.length_eq
  rw [List.length_append, show threePrograms.length = 3 from rfl] at hall
  omega

end PassTuner.Trainer
