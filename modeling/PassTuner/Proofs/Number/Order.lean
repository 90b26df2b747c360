import Mathlib

/-!
# The order of floating-point numbers

Numbers are compared class by class, then by exponent and then by mantissa, which is the order of
their ranks. What is none has no place in it. Main statements: one number is below another, or not
above it, just when both are numbers and their ranks are in that order, for both precisions.
-/

namespace PassTuner

open Float.Model

/-! ## Places -/

namespace Ranks

variable {u v : UnpackedFloat}

/-- The place of a number among all others: by class, then by exponent, then by mantissa. -/
def rank : UnpackedFloat → ℤ ×ₗ ℤ ×ₗ ℤ
  | .notANumber => toLex (0, toLex (0, 0))
  | .zero _ => toLex (0, toLex (0, 0))
  | .infinity .negative => toLex (-2, toLex (0, 0))
  | .infinity .positive => toLex (2, toLex (0, 0))
  | .finite .negative m e _ => toLex (-1, toLex (-e, -m))
  | .finite .positive m e _ => toLex (1, toLex (e, m))

theorem compare_toLex (a b c d e f : ℤ) :
    compare (toLex (a, toLex (b, c))) (toLex (d, toLex (e, f))) =
      (compare a d).then ((compare b e).then (compare c f)) := by
  simp [Prod.Lex.compare_def, compareLex, compareOn]

theorem compare_neg (a b : ℤ) : compare (-a) (-b) = (compare a b).swap := by
  rcases lt_trichotomy a b with h | rfl | h
  · rw [Int.compare_eq_gt.2 (by omega), Int.compare_eq_lt.2 h]
    rfl
  · simp
  · rw [Int.compare_eq_lt.2 (by omega), Int.compare_eq_gt.2 h]
    rfl

theorem compare_cast (m n : ℕ) : compare (m : ℤ) (n : ℤ) = compare m n := by
  rcases lt_trichotomy m n with h | rfl | h
  · rw [Int.compare_eq_lt.2 (by omega), Nat.compare_eq_lt.2 h]
  · simp
  · rw [Int.compare_eq_gt.2 (by omega), Nat.compare_eq_gt.2 h]

/-- Numbers are compared by their places. -/
theorem compare_eq_rank (hu : u.isNaN = false) (hv : v.isNaN = false) :
    u.compare v = some (compare (rank u) (rank v)) := by
  cases u with
  | notANumber => cases hu
  | zero s =>
    cases v with
    | notANumber => cases hv
    | zero s' => rfl
    | infinity s' => cases s' <;> rfl
    | finite s' m' e' => cases s' <;> rfl
  | infinity s =>
    cases v with
    | notANumber => cases hv
    | zero s' => cases s <;> rfl
    | infinity s' => cases s <;> cases s' <;> rfl
    | finite s' m' e' => cases s <;> cases s' <;> rfl
  | finite s m e =>
    cases v with
    | notANumber => cases hv
    | zero s' => cases s <;> rfl
    | infinity s' => cases s <;> cases s' <;> rfl
    | finite s' m' e' =>
      cases s with
      | negative =>
        cases s' with
        | negative =>
          simp only [rank, compare_toLex, compare_neg, compare_cast]
          simp [UnpackedFloat.compare, Ordering.swap_then]
        | positive => rfl
      | positive =>
        cases s' with
        | negative => rfl
        | positive =>
          simp only [rank, compare_toLex, compare_cast]
          simp [UnpackedFloat.compare]

theorem isNaN_of_compare {o : Ordering} (h : u.compare v = some o) :
    u.isNaN = false ∧ v.isNaN = false := by
  cases u with
  | notANumber => cases v <;> cases h
  | _ =>
    cases v with
    | notANumber => cases h
    | _ => exact ⟨rfl, rfl⟩

theorem lt_iff : (u.compare v == some .lt) = true ↔
    u.isNaN = false ∧ v.isNaN = false ∧ rank u < rank v := by
  rw [beq_iff_eq]
  constructor
  · intro h
    obtain ⟨hu, hv⟩ := isNaN_of_compare h
    rw [compare_eq_rank hu hv] at h
    exact ⟨hu, hv, compare_lt_iff_lt.1 (Option.some.inj h)⟩
  · rintro ⟨hu, hv, h⟩
    rw [compare_eq_rank hu hv, compare_lt_iff_lt.2 h]

theorem le_iff : (u.compare v).any (·.isLE) = true ↔
    u.isNaN = false ∧ v.isNaN = false ∧ rank u ≤ rank v := by
  constructor
  · intro h
    obtain ⟨o, ho, hle⟩ := (Option.any_eq_true ..).1 h
    obtain ⟨hu, hv⟩ := isNaN_of_compare ho
    rw [compare_eq_rank hu hv] at ho
    cases ho
    exact ⟨hu, hv, compare_le_iff_le.1 (Ordering.isLE_iff_ne_gt.1 hle)⟩
  · rintro ⟨hu, hv, h⟩
    rw [compare_eq_rank hu hv, Option.any_some]
    exact Ordering.isLE_iff_ne_gt.2 (compare_le_iff_le.2 h)

end Ranks

/-! ## Double precision -/

namespace Doubles

variable {x y z : Float}

/-- The place of a double. -/
def rank (x : Float) : ℤ ×ₗ ℤ ×ₗ ℤ := Ranks.rank x.toModel.unpack

theorem lt_iff_rank : x < y ↔ x.isNaN = false ∧ y.isNaN = false ∧ rank x < rank y :=
  decide_eq_true_iff.trans Ranks.lt_iff

theorem le_iff_rank : x ≤ y ↔ x.isNaN = false ∧ y.isNaN = false ∧ rank x ≤ rank y :=
  decide_eq_true_iff.trans Ranks.le_iff

theorem le_refl (h : x.isNaN = false) : x ≤ x := le_iff_rank.2 ⟨h, h, le_rfl⟩

theorem le_trans (h : x ≤ y) (h' : y ≤ z) : x ≤ z := by
  obtain ⟨hx, -, hxy⟩ := le_iff_rank.1 h
  obtain ⟨-, hz, hyz⟩ := le_iff_rank.1 h'
  exact le_iff_rank.2 ⟨hx, hz, hxy.trans hyz⟩

theorem lt_of_le_of_lt (h : x ≤ y) (h' : y < z) : x < z := by
  obtain ⟨hx, -, hxy⟩ := le_iff_rank.1 h
  obtain ⟨-, hz, hyz⟩ := lt_iff_rank.1 h'
  exact lt_iff_rank.2 ⟨hx, hz, hxy.trans_lt hyz⟩

theorem not_lt_of_lt (h : x < y) : ¬y < x := by
  obtain ⟨-, -, hxy⟩ := lt_iff_rank.1 h
  exact fun hlt => (lt_iff_rank.1 hlt).2.2.not_gt hxy

theorem not_lt_of_le (h : x ≤ y) : ¬y < x := by
  obtain ⟨-, -, hxy⟩ := le_iff_rank.1 h
  exact fun hlt => (lt_iff_rank.1 hlt).2.2.not_ge hxy

theorem isNaN_of_lt (h : x < y) : y.isNaN = false := (lt_iff_rank.1 h).2.1

theorem le_of_not_lt (hx : x.isNaN = false) (hy : y.isNaN = false) (h : ¬x < y) : y ≤ x :=
  le_iff_rank.2 ⟨hy, hx, not_lt.1 fun hlt => h (lt_iff_rank.2 ⟨hx, hy, hlt⟩)⟩

end Doubles

/-! ## Single precision -/

namespace Singles

variable {x y z : Float32}

/-- The place of a single. -/
def rank (x : Float32) : ℤ ×ₗ ℤ ×ₗ ℤ := Ranks.rank x.toModel.unpack

theorem lt_iff_rank : x < y ↔ x.isNaN = false ∧ y.isNaN = false ∧ rank x < rank y :=
  decide_eq_true_iff.trans Ranks.lt_iff

theorem le_iff_rank : x ≤ y ↔ x.isNaN = false ∧ y.isNaN = false ∧ rank x ≤ rank y :=
  decide_eq_true_iff.trans Ranks.le_iff

theorem le_refl (h : x.isNaN = false) : x ≤ x := le_iff_rank.2 ⟨h, h, le_rfl⟩

theorem le_of_lt (h : x < y) : x ≤ y := by
  obtain ⟨hx, hy, hxy⟩ := lt_iff_rank.1 h
  exact le_iff_rank.2 ⟨hx, hy, hxy.le⟩

theorem lt_of_le_of_lt (h : x ≤ y) (h' : y < z) : x < z := by
  obtain ⟨hx, -, hxy⟩ := le_iff_rank.1 h
  obtain ⟨-, hz, hyz⟩ := lt_iff_rank.1 h'
  exact lt_iff_rank.2 ⟨hx, hz, hxy.trans_lt hyz⟩

theorem lt_of_not_le (hx : x.isNaN = false) (hy : y.isNaN = false) (h : ¬x ≤ y) : y < x :=
  lt_iff_rank.2 ⟨hy, hx, not_le.1 fun hle => h (le_iff_rank.2 ⟨hx, hy, hle⟩)⟩

theorem not_le_of_lt (h : x < y) : ¬y ≤ x := by
  obtain ⟨-, -, hxy⟩ := lt_iff_rank.1 h
  exact fun hle => (le_iff_rank.1 hle).2.2.not_gt hxy

end Singles

end PassTuner
