import PassTuner.Proofs.Number.Scaling
import PassTuner.Proofs.Number.Shortest

/-!
# Decimals beside the ends of intervals

What is read for a decimal is not quite the decimal, so it might lie on the other side of an end
between two singles. Decimal and end are products of small naturals with powers, of ten and of two,
and they are near each other only where a fraction of small naturals is near the quotient of the
powers. For all exponents the fractions next to the quotient are found by a search that nothing
depends on, and then checked. Main statement: what is read for a decimal lies on the same side of an
end as the decimal, or on the end where that belongs to the interval on this side.
-/

namespace PassTuner

/-! ## Neighbouring fractions -/

structure Fraction where
  num : ℕ
  den : ℕ

namespace Fraction

/-- There is no fraction between these two with a denominator up to the limit. -/
def Adjacent (limit : ℕ) (x y : Fraction) : Prop :=
  y.num * x.den = x.num * y.den + 1 ∧ limit < x.den + y.den

instance (limit : ℕ) (x y : Fraction) : Decidable (Adjacent limit x y) :=
  inferInstanceAs (Decidable (_ ∧ _))

variable {limit : ℕ} {x y : Fraction} {c d : ℕ}

theorem Adjacent.outside (h : Adjacent limit x y) (hd : d ≤ limit) (c : ℕ) :
    c * x.den ≤ x.num * d ∨ y.num * d ≤ c * y.den := by
  by_contra inside
  obtain ⟨above, below⟩ := not_or.1 inside
  have split : d = y.den * (c * x.den - x.num * d) + x.den * (y.num * d - c * y.den) := by
    zify [(not_le.1 above).le, (not_le.1 below).le]
    have det : (y.num * x.den : ℤ) = x.num * y.den + 1 := by exact_mod_cast h.1
    linear_combination -(d : ℤ) * det
  have low : y.den * 1 ≤ y.den * (c * x.den - x.num * d) := Nat.mul_le_mul_left _ (by omega)
  have high : x.den * 1 ≤ x.den * (y.num * d - c * y.den) := Nat.mul_le_mul_left _ (by omega)
  have := h.2
  omega

theorem Adjacent.coprime (h : Adjacent limit x y) :
    x.num.Coprime x.den ∧ y.num.Coprime y.den := by
  have one {n m k : ℕ} (hn : n ∣ m) (hk : n ∣ k) (step : m = k + 1) : n = 1 := by
    rw [step] at hn
    exact Nat.dvd_one.1 ((Nat.dvd_add_right hk).1 hn)
  exact ⟨one ((Nat.gcd_dvd_right _ _).mul_left _) ((Nat.gcd_dvd_left _ _).mul_right _) h.1,
    one ((Nat.gcd_dvd_left _ _).mul_right _) ((Nat.gcd_dvd_right _ _).mul_left _) h.1⟩

/-- A fraction equal to one in lowest terms. -/
theorem exists_multiple (h : x.num.Coprime x.den) (hd : 0 < d) (equal : c * x.den = x.num * d) :
    ∃ j, c = j * x.num ∧ d = j * x.den := by
  obtain ⟨j, rfl⟩ := h.symm.dvd_of_dvd_mul_left (Dvd.intro_left c equal)
  have pos : 0 < x.den := Nat.pos_of_mul_pos_right hd
  exact ⟨j, Nat.eq_of_mul_eq_mul_right pos (by rw [equal]; ring), mul_comm _ _⟩

/-! ## Fractions away from a quotient -/

variable {num den : ℕ}

/-- The fraction is less than `num / den` by more than the part of it that reading may be off. -/
def Below (x : Fraction) (num den : ℕ) : Prop :=
  x.num * den * (2 ^ 100 + (2 ^ 48 + 1)) < num * x.den * 2 ^ 100

/-- The fraction is more than `num / den` by more than the part of it that reading may be off. -/
def Above (x : Fraction) (num den : ℕ) : Prop :=
  num * x.den * 2 ^ 100 + x.num * den * (2 ^ 48 + 1) < x.num * den * 2 ^ 100

instance (x : Fraction) (num den : ℕ) : Decidable (Below x num den) :=
  inferInstanceAs (Decidable (_ < _))

instance (x : Fraction) (num den : ℕ) : Decidable (Above x num den) :=
  inferInstanceAs (Decidable (_ < _))

theorem readingError_eq : Dyadic.readingError = (2 ^ 48 + 1) / 2 ^ 100 := by
  norm_num [Dyadic.readingError]

theorem Below.far (h : x.Below num den) (hden : 0 < den) (hd : 0 < d)
    (le : c * x.den ≤ x.num * d) : (c * (1 + Dyadic.readingError) : ℚ) < d * (num / den) := by
  have pos : (0 : ℚ) < x.den := by
    refine Nat.cast_pos.2 (Nat.pos_of_ne_zero fun zero => ?_)
    rw [Below, zero, mul_zero, zero_mul] at h
    exact Nat.not_lt_zero _ h
  have hden' : (0 : ℚ) < den := Nat.cast_pos.2 hden
  have hd' : (0 : ℚ) < d := Nat.cast_pos.2 hd
  have h' : (x.num * den * (2 ^ 100 + (2 ^ 48 + 1)) : ℚ) < num * x.den * 2 ^ 100 := by
    exact_mod_cast h
  have le' : (c * x.den : ℚ) ≤ x.num * d := by exact_mod_cast le
  rw [readingError_eq, mul_div_assoc', lt_div_iff₀ hden']
  refine lt_of_mul_lt_mul_right ?_ pos.le
  calc (c * (1 + (2 ^ 48 + 1) / 2 ^ 100) * den * x.den : ℚ)
      = c * x.den * (den * (2 ^ 100 + (2 ^ 48 + 1)) / 2 ^ 100) := by ring
    _ ≤ x.num * d * (den * (2 ^ 100 + (2 ^ 48 + 1)) / 2 ^ 100) := by gcongr
    _ = d * (x.num * den * (2 ^ 100 + (2 ^ 48 + 1)) / 2 ^ 100) := by ring
    _ < d * (num * x.den * 2 ^ 100 / 2 ^ 100) := by gcongr
    _ = d * num * x.den := by ring

theorem Above.far (h : x.Above num den) (hden : 0 < den) (hd : 0 < d)
    (le : x.num * d ≤ c * x.den) : (d * (num / den) : ℚ) < c * (1 - Dyadic.readingError) := by
  have h' : (num * x.den * 2 ^ 100 + x.num * den * (2 ^ 48 + 1) : ℚ) < x.num * den * 2 ^ 100 := by
    exact_mod_cast h
  have hden' : (0 : ℚ) < den := Nat.cast_pos.2 hden
  have hd' : (0 : ℚ) < d := Nat.cast_pos.2 hd
  have le' : (x.num * d : ℚ) ≤ c * x.den := by exact_mod_cast le
  have pos : 0 < x.den := Nat.pos_of_ne_zero fun zero => by
    rw [zero, mul_zero, Nat.le_zero, mul_eq_zero_iff_right hd.ne'] at le
    rw [Above, le, zero_mul] at h
    exact Nat.not_lt_zero _ h
  have pos' : (0 : ℚ) < x.den := Nat.cast_pos.2 pos
  rw [readingError_eq, mul_div_assoc', div_lt_iff₀ hden']
  refine lt_of_mul_lt_mul_right ?_ pos'.le
  calc (d * num * x.den : ℚ) = d * (num * x.den * 2 ^ 100) / 2 ^ 100 := by ring
    _ < d * (x.num * den * 2 ^ 100 - x.num * den * (2 ^ 48 + 1)) / 2 ^ 100 := by
      gcongr
      linarith
    _ = x.num * d * (den * (1 - (2 ^ 48 + 1) / 2 ^ 100)) := by ring
    _ ≤ c * x.den * (den * (1 - (2 ^ 48 + 1) / 2 ^ 100)) := by gcongr
    _ = c * (1 - (2 ^ 48 + 1) / 2 ^ 100) * den * x.den := by ring

/-! ## Search -/

/-- Two fractions on either side of `num / den`, moved towards it as far as denominators up to the
limit allow. -/
def approach (limit num den : ℕ) : ℕ → Fraction × Fraction → Fraction × Fraction
  | 0, pair => pair
  | fuel + 1, (x, y) =>
    let up := min ((num * x.den - x.num * den) / (y.num * den - num * y.den))
      ((limit - x.den) / y.den)
    let x : Fraction := ⟨x.num + up * y.num, x.den + up * y.den⟩
    let gap := num * x.den - x.num * den
    let room := (limit - y.den) / x.den
    let down := if gap = 0 then room else min ((y.num * den - num * y.den - 1) / gap) room
    approach limit num den fuel (x, ⟨y.num + down * x.num, y.den + down * x.den⟩)

/-- The fraction that follows two, with a denominator up to the limit. -/
def next (limit : ℕ) (x y : Fraction) : Fraction :=
  let times := (limit + x.den) / y.den
  ⟨times * y.num - x.num, times * y.den - x.den⟩

end Fraction

/-! ## Sides -/

namespace Sides

/-- How `n * 2 ^ e * 10 ^ k` compares with `parts * 2 ^ q`. -/
def side (n : ℕ) (e k : ℤ) (parts : ℕ) (q : ℤ) : Ordering :=
  compare (Shortest.scaled n (e - q) k).1 (parts * (Shortest.scaled n (e - q) k).2)

theorem side_spec (n : ℕ) (e k : ℤ) (parts : ℕ) (q : ℤ) :
    side n e k parts q = compare (n * 2 ^ e * 10 ^ k : ℚ) (parts * 2 ^ q) := by
  have den : (0 : ℚ) < (Shortest.scaled n (e - q) k).2 := by
    exact_mod_cast Shortest.scaled_den_pos _ _ _
  have unit : (0 : ℚ) < 2 ^ q := zpow_pos two_pos _
  have meant : (n * 2 ^ e * 10 ^ k : ℚ) =
      (Shortest.scaled n (e - q) k).1 / (Shortest.scaled n (e - q) k).2 * 2 ^ q := by
    rw [Shortest.scaled_div, zpow_sub₀ two_ne_zero]
    field_simp
  have below : (Shortest.scaled n (e - q) k).1 < parts * (Shortest.scaled n (e - q) k).2 ↔
      (n * 2 ^ e * 10 ^ k : ℚ) < parts * 2 ^ q := by
    rw [meant, mul_lt_mul_iff_left₀ unit, div_lt_iff₀ den]
    exact_mod_cast Iff.rfl
  have above : parts * (Shortest.scaled n (e - q) k).2 < (Shortest.scaled n (e - q) k).1 ↔
      (parts * 2 ^ q : ℚ) < n * 2 ^ e * 10 ^ k := by
    rw [meant, mul_lt_mul_iff_left₀ unit, lt_div_iff₀ den]
    exact_mod_cast Iff.rfl
  rcases lt_trichotomy (Shortest.scaled n (e - q) k).1
    (parts * (Shortest.scaled n (e - q) k).2) with
    lt | eq | gt
  · rw [side, compare_lt_iff_lt.2 lt, compare_lt_iff_lt.2 (below.1 lt)]
  · rw [side, compare_eq_iff_eq.2 eq, compare_eq_iff_eq.2]
    exact le_antisymm (not_lt.1 fun h => eq.not_gt (above.2 h))
      (not_lt.1 fun h => eq.not_lt (below.2 h))
  · rw [side, compare_gt_iff_gt.2 gt, compare_gt_iff_gt.2 (above.1 gt)]

/-- What is read for a decimal lies on the same side of an end as the decimal. It may lie on the end
where the number on that side is even, the end being half a unit away from it. -/
structure Kept (parts : ℕ) (bound decimal read : ℚ) : Prop where
  on : decimal = bound → read = bound
  below : decimal < bound → read < bound ∨ read = bound ∧ parts % 4 = 1
  above : bound < decimal → bound < read ∨ read = bound ∧ parts % 4 = 3

variable {parts c : ℕ} {k q : ℤ} {bound decimal read : ℚ} {y : Dyadic}

theorem kept_self : Kept parts bound decimal decimal :=
  ⟨id, .inl, .inl⟩

theorem kept_of_far (error : |read - decimal| ≤ decimal * Dyadic.readingError)
    (far : decimal * Dyadic.readingError < |decimal - bound|) : Kept parts bound decimal read := by
  obtain ⟨low, high⟩ := abs_le.1 error
  refine ⟨fun on => ?_, fun below => .inl ?_, fun above => .inl ?_⟩
  · rw [on, sub_self, abs_zero] at far
    exact absurd ((abs_nonneg _).trans error) (on ▸ far).not_ge
  · rw [abs_of_neg (sub_neg.2 below)] at far
    linarith
  · rw [abs_of_pos (sub_pos.2 above)] at far
    linarith

/-- Whether what is read for `c * 10 ^ k` lies on the same side of `parts * 2 ^ q`. -/
def keeps (c : ℕ) (k : ℤ) (parts : ℕ) (q : ℤ) : Bool :=
  match Dyadic.scaled? c k with
  | none => false
  | some y =>
    match side c 0 k parts q, side y.significand y.exponent 0 parts q with
    | .eq, read => read == .eq
    | .lt, read => read == .lt || read == .eq && parts % 4 == 1
    | .gt, read => read == .gt || read == .eq && parts % 4 == 3

theorem kept_of_keeps (h : keeps c k parts q = true) (hy : Dyadic.scaled? c k = some y) :
    Kept parts (parts * 2 ^ q) (c * 10 ^ k) y.value := by
  have decimal := side_spec c 0 k parts q
  have read := side_spec y.significand y.exponent 0 parts q
  rw [zpow_zero, mul_one] at decimal read
  change _ = compare y.value _ at read
  simp only [keeps, hy, decimal, read] at h
  rcases lt_trichotomy (c * 10 ^ k : ℚ) (parts * 2 ^ q) with lt | eq | gt
  · rw [compare_lt_iff_lt.2 lt] at h
    simp only [Bool.or_eq_true, Bool.and_eq_true, beq_iff_eq, compare_lt_iff_lt,
      compare_eq_iff_eq] at h
    exact ⟨fun eq => absurd eq lt.ne, fun _ => h, fun gt => absurd gt lt.not_gt⟩
  · rw [compare_eq_iff_eq.2 eq] at h
    simp only [beq_iff_eq, compare_eq_iff_eq] at h
    exact ⟨fun _ => h, fun lt => absurd lt eq.not_lt, fun gt => absurd gt eq.not_gt⟩
  · rw [compare_gt_iff_gt.2 gt] at h
    simp only [Bool.or_eq_true, Bool.and_eq_true, beq_iff_eq, compare_gt_iff_gt,
      compare_eq_iff_eq] at h
    exact ⟨fun eq => absurd eq gt.ne', fun lt => absurd lt gt.not_gt, fun _ => h⟩

/-! ## Near the ends -/

/-- Decimals near an end as the fraction says are read well: they are the end and are read exactly,
or all of them were tried. -/
def Harmless (k q : ℤ) (x : Fraction) : Prop :=
  x.num * (Shortest.scaled 1 q (-k)).2 = (Shortest.scaled 1 q (-k)).1 * x.den ∧ k.natAbs ≤ 22 ∨
    ∀ j < 2 ^ 25 / max x.num x.den, ∀ s : ℕ, s < 25 → ∀ t : ℕ, t < 25 →
      (2 : ℕ) ^ s ∣ (j + 1) * x.num → 2 ^ t ∣ (j + 1) * x.den →
        keeps ((j + 1) * x.num / 2 ^ s) k ((j + 1) * x.den / 2 ^ t) (q + t - s) = true

instance (k q : ℤ) (x : Fraction) : Decidable (Harmless k q x) :=
  inferInstanceAs (Decidable (_ ∨ _))

/-- Of four fractions that follow one another the outer two are away from a quotient, and the inner
two are away from it or harmless. -/
def Clear (k q : ℤ) (num den : ℕ) (before x y behind : Fraction) : Prop :=
  (before.Adjacent (2 ^ 25) x ∧ x.Adjacent (2 ^ 25) y ∧ y.Adjacent (2 ^ 25) behind) ∧
    before.Below num den ∧ behind.Above num den ∧
    (x.Below num den ∨ x.Above num den ∨ Harmless k q x) ∧
    (y.Below num den ∨ y.Above num den ∨ Harmless k q y)

instance (k q : ℤ) (num den : ℕ) (before x y behind : Fraction) :
    Decidable (Clear k q num den before x y behind) :=
  inferInstanceAs (Decidable (_ ∧ _))

/-- The fractions that are found around `2 ^ q / 10 ^ k` are clear. -/
def clears (k q : ℤ) : Bool :=
  let (num, den) := Shortest.scaled 1 q (-k)
  let (x, y) := Fraction.approach (2 ^ 25) num den 12 (⟨num / den, 1⟩, ⟨num / den + 1, 1⟩)
  decide (Clear k q num den (.next (2 ^ 25) y x) x y (.next (2 ^ 25) x y))

theorem Clear.exists_harmless {num den d : ℕ} {before x y behind : Fraction}
    (h : Clear k q num den before x y behind) (hden : 0 < den) (hd : 0 < d) (hd' : d ≤ 2 ^ 25)
    (low : (c * (1 - Dyadic.readingError) : ℚ) ≤ d * (num / den))
    (high : (d * (num / den) : ℚ) ≤ c * (1 + Dyadic.readingError)) :
    ∃ (x : Fraction) (j : ℕ), Harmless k q x ∧ c = j * x.num ∧ d = j * x.den := by
  obtain ⟨⟨first, second, third⟩, outer, outer', ofX, ofY⟩ := h
  -- A fraction that is away from the quotient is not near it, nor is one beyond it.
  have notBelow {x : Fraction} (away : x.Below num den) : ¬c * x.den ≤ x.num * d := fun le =>
    (away.far hden hd le).not_ge high
  have notAbove {x : Fraction} (away : x.Above num den) : ¬x.num * d ≤ c * x.den := fun le =>
    (away.far hden hd le).not_ge low
  have equal {x : Fraction} (coprime : x.num.Coprime x.den)
      (settled : x.Below num den ∨ x.Above num den ∨ Harmless k q x) (le : c * x.den ≤ x.num * d)
      (ge : x.num * d ≤ c * x.den) :
      ∃ (x : Fraction) (j : ℕ), Harmless k q x ∧ c = j * x.num ∧ d = j * x.den := by
    obtain below | above | harmless := settled
    · exact absurd le (notBelow below)
    · exact absurd ge (notAbove above)
    · obtain ⟨j, hc, hd⟩ := Fraction.exists_multiple coprime hd (le_antisymm le ge)
      exact ⟨x, j, harmless, hc, hd⟩
  have pastFirst := (first.outside hd' c).resolve_left (notBelow outer)
  have beforeLast := (third.outside hd' c).resolve_right (notAbove outer')
  rcases second.outside hd' c with le | ge
  · exact equal second.coprime.1 ofX le pastFirst
  · exact equal second.coprime.2 ofY beforeLast ge

/-- A decimal near an end makes a fraction that is harmless. -/
theorem exists_harmless {d : ℕ} (h : clears k q = true) (hd : 0 < d) (hd' : d ≤ 2 ^ 25)
    (low : (c * (1 - Dyadic.readingError) : ℚ) ≤ d * (2 ^ q / 10 ^ k))
    (high : (d * (2 ^ q / 10 ^ k) : ℚ) ≤ c * (1 + Dyadic.readingError)) :
    ∃ (x : Fraction) (j : ℕ), Harmless k q x ∧ c = j * x.num ∧ d = j * x.den := by
  have quotient := Shortest.scaled_div 1 q (-k)
  rw [Nat.cast_one, one_mul, zpow_neg, ← div_eq_mul_inv] at quotient
  rw [← quotient] at low high
  simp only [clears, decide_eq_true_eq] at h
  exact h.exists_harmless (Shortest.scaled_den_pos 1 q (-k)) hd hd' low high

/-- The exponent of the power of two that is next to a power of ten. -/
def estimate (k : ℤ) : ℤ := k * 217706 / 65536

theorem estimate_fits : ∀ i : ℕ, i < 94 →
    let (num, den) := Shortest.scaled 1 (estimate (i - 55)) (-(i - 55))
    num ≤ den ∧ 201 * den ≤ 400 * num := by
  decide +kernel

theorem clears_all : ∀ i : ℕ, i < 94 → ∀ j : ℕ, j < 3 →
    clears (i - 55) (estimate (i - 55) + j - 1) = true := by
  decide +kernel

theorem estimate_spec (low : -55 ≤ k) (high : k ≤ 38) :
    (2 ^ estimate k / 10 ^ k : ℚ) ≤ 1 ∧ (201 / 400 : ℚ) ≤ 2 ^ estimate k / 10 ^ k := by
  obtain ⟨i, rfl⟩ : ∃ i : ℕ, k = i - 55 := ⟨(k + 55).toNat, by omega⟩
  obtain ⟨le, ge⟩ := estimate_fits i (by omega)
  have den : (0 : ℚ) < (Shortest.scaled 1 (estimate (i - 55)) (-(i - 55))).2 := by
    exact_mod_cast Shortest.scaled_den_pos _ _ _
  have quotient := Shortest.scaled_div 1 (estimate (i - 55)) (-(i - 55))
  rw [Nat.cast_one, one_mul, zpow_neg, ← div_eq_mul_inv] at quotient
  rw [← quotient, div_le_one den, le_div_iff₀ den]
  constructor
  · exact_mod_cast le
  · have ge : (201 * (Shortest.scaled 1 (estimate (i - 55)) (-(i - 55))).2 : ℚ) ≤
        400 * (Shortest.scaled 1 (estimate (i - 55)) (-(i - 55))).1 := by exact_mod_cast ge
    linarith

/-- Where naturals of 25 bits may be near the quotient of the powers, it has been looked around. -/
theorem clears_of_near {d : ℕ} (low : -55 ≤ k) (high : k ≤ 38) (hc : 2 ^ 24 ≤ c) (hc' : c ≤ 2 ^ 25)
    (hd : 2 ^ 24 ≤ d) (hd' : d ≤ 2 ^ 25)
    (below : (c * (1 - Dyadic.readingError) : ℚ) ≤ d * (2 ^ q / 10 ^ k))
    (above : (d * (2 ^ q / 10 ^ k) : ℚ) ≤ c * (1 + Dyadic.readingError)) : clears k q = true := by
  obtain ⟨least, most⟩ := estimate_spec low high
  have ten : (0 : ℚ) < 10 ^ k := zpow_pos (by norm_num) _
  have hc : (2 ^ 24 : ℚ) ≤ c := by exact_mod_cast hc
  have hc' : (c : ℚ) ≤ 2 ^ 25 := by exact_mod_cast hc'
  have hd : (2 ^ 24 : ℚ) ≤ d := by exact_mod_cast hd
  have hd' : (d : ℚ) ≤ 2 ^ 25 := by exact_mod_cast hd'
  have split (n : ℤ) : (2 ^ (estimate k + n) / 10 ^ k : ℚ) = 2 ^ estimate k / 10 ^ k * 2 ^ n := by
    rw [zpow_add₀ two_ne_zero]
    ring
  have mono {a b : ℤ} (h : a ≤ b) : (2 ^ a / 10 ^ k : ℚ) ≤ 2 ^ b / 10 ^ k := by
    gcongr
    exact one_le_two
  rw [Dyadic.readingError] at below above
  have notLess : ¬q ≤ estimate k + -2 := fun h => by
    have small : (2 ^ q / 10 ^ k : ℚ) ≤ 1 / 4 := by
      refine (mono h).trans ?_
      rw [split]
      norm_num
      linarith
    nlinarith
  have notMore : ¬estimate k + 2 ≤ q := fun h => by
    have large : (201 / 100 : ℚ) ≤ 2 ^ q / 10 ^ k := by
      refine le_trans ?_ (mono h)
      rw [split]
      norm_num
      linarith
    nlinarith
  obtain ⟨i, rfl⟩ : ∃ i : ℕ, k = i - 55 := ⟨(k + 55).toNat, by omega⟩
  obtain ⟨j, hj, rfl⟩ : ∃ j : ℕ, j < 3 ∧ q = estimate (i - 55) + j - 1 :=
    ⟨(q - estimate (i - 55) + 1).toNat, by omega, by omega⟩
  exact clears_all i (by omega) j hj

theorem exists_scale {n : ℕ} (pos : 0 < n) (small : n ≤ 2 ^ 25) :
    ∃ s < 25, 2 ^ 24 ≤ n * 2 ^ s ∧ n * 2 ^ s ≤ 2 ^ 25 := by
  have low := Nat.log2_self_le pos.ne'
  have high : n < 2 ^ (n.log2 + 1) := Nat.lt_log2_self
  rcases Nat.lt_or_ge n.log2 25 with few | many
  · refine ⟨24 - n.log2, by omega, ?_, ?_⟩
    · calc 2 ^ 24 = 2 ^ n.log2 * 2 ^ (24 - n.log2) := by rw [← pow_add]; congr 1; omega
        _ ≤ n * 2 ^ (24 - n.log2) := Nat.mul_le_mul_right _ low
    · calc n * 2 ^ (24 - n.log2) ≤ 2 ^ (n.log2 + 1) * 2 ^ (24 - n.log2) :=
            Nat.mul_le_mul_right _ high.le
        _ = 2 ^ 25 := by rw [← pow_add]; congr 1; omega
  · exact ⟨0, by norm_num, by
      have := Nat.pow_le_pow_right two_pos many
      omega, by simpa using small⟩

/-- **Sides.** What is read for a decimal with few digits lies on the same side of an end as the
decimal itself. -/
theorem kept_of_read (hc : 0 < c) (hc' : c ≤ 2 ^ 25) (low : -55 ≤ k) (high : k ≤ 38)
    (hparts : 0 < parts) (hparts' : parts ≤ 2 ^ 25) (q : ℤ)
    (hy : Dyadic.scaled? c k = some y) : Kept parts (parts * 2 ^ q) (c * 10 ^ k) y.value := by
  obtain ⟨y', hy', error, exact'⟩ :=
    Dyadic.scaled?_spec hc (by omega : c < 2 ^ 53) (by omega : k.natAbs ≤ 55)
  cases hy.symm.trans hy'
  by_cases far : c * 10 ^ k * Dyadic.readingError < |(c * 10 ^ k - parts * 2 ^ q : ℚ)|
  · exact kept_of_far error far
  obtain ⟨above, below⟩ := abs_le.1 (not_lt.1 far)
  obtain ⟨s, hs, cLow, cHigh⟩ := exists_scale hc hc'
  obtain ⟨t, ht, dLow, dHigh⟩ := exists_scale hparts hparts'
  have ten : (0 : ℚ) < 10 ^ k := zpow_pos (by norm_num) _
  -- Both scaled to 25 bits.
  have scaled : ((parts * 2 ^ t : ℕ) * (2 ^ (q + s - t) / 10 ^ k) : ℚ) =
      parts * 2 ^ q / 10 ^ k * 2 ^ s := by
    rw [zpow_sub₀ two_ne_zero, zpow_add₀ two_ne_zero, zpow_natCast, zpow_natCast]
    push_cast
    field_simp
  have least : ((c * 2 ^ s : ℕ) * (1 - Dyadic.readingError) : ℚ) ≤
      (parts * 2 ^ t : ℕ) * (2 ^ (q + s - t) / 10 ^ k) := by
    rw [scaled, Nat.cast_mul, Nat.cast_pow, Nat.cast_ofNat, mul_right_comm]
    gcongr
    rw [le_div_iff₀ ten]
    linarith
  have most : ((parts * 2 ^ t : ℕ) * (2 ^ (q + s - t) / 10 ^ k) : ℚ) ≤
      (c * 2 ^ s : ℕ) * (1 + Dyadic.readingError) := by
    rw [scaled, Nat.cast_mul, Nat.cast_pow, Nat.cast_ofNat, mul_right_comm]
    gcongr
    rw [div_le_iff₀ ten]
    linarith
  obtain ⟨x, j, harmless, hcx, hdx⟩ := exists_harmless
    (clears_of_near low high cLow cHigh dLow dHigh least most) (by positivity) dHigh least most
  obtain ⟨equal, few⟩ | tried := harmless
  · have on : (c * 10 ^ k : ℚ) = parts * 2 ^ q := by
      have den : (0 : ℚ) < (Shortest.scaled 1 (q + s - t) (-k)).2 := by
        exact_mod_cast Shortest.scaled_den_pos _ _ _
      have quotient := Shortest.scaled_div 1 (q + s - t) (-k)
      rw [Nat.cast_one, one_mul, zpow_neg, ← div_eq_mul_inv] at quotient
      have both : ((c * 2 ^ s : ℕ) * (Shortest.scaled 1 (q + s - t) (-k)).2 : ℚ) =
          (parts * 2 ^ t : ℕ) * (Shortest.scaled 1 (q + s - t) (-k)).1 := by
        rw [hcx, hdx]
        exact_mod_cast (by rw [mul_assoc, equal]; ring)
      rw [← quotient, mul_div_assoc', ← both, mul_div_cancel_right₀ _ den.ne'] at scaled
      push_cast at scaled
      rw [← eq_div_iff ten.ne']
      exact mul_right_cancel₀ (by positivity) scaled
    have whole : y.value = c * 10 ^ k :=
      (exact' few).2 ⟨parts, q, hparts'.trans_lt (by norm_num), on⟩
    rw [whole]
    exact kept_self
  · obtain ⟨i, rfl⟩ : ∃ i, j = i + 1 := Nat.exists_eq_succ_of_ne_zero fun zero => by
      rw [zero, zero_mul] at hdx
      exact (Nat.mul_pos hparts (Nat.two_pow_pos t)).ne' hdx
    have room : i < 2 ^ 25 / max x.num x.den := by
      have pos : 0 < x.den := Nat.pos_of_mul_pos_left (hdx ▸ Nat.mul_pos hparts (Nat.two_pow_pos t))
      rw [← Nat.succ_le_iff, Nat.le_div_iff_mul_le (lt_max_of_lt_right pos)]
      rcases max_choice x.num x.den with h | h
      · rw [h]
        exact hcx ▸ cHigh
      · rw [h]
        exact hdx ▸ dHigh
    have kept := tried i room s hs t ht (hcx ▸ Nat.dvd_mul_left _ _) (hdx ▸ Nat.dvd_mul_left _ _)
    rw [← hcx, ← hdx, Nat.mul_div_cancel _ (Nat.two_pow_pos s),
      Nat.mul_div_cancel _ (Nat.two_pow_pos t), show q + s - t + t - s = q by ring] at kept
    exact kept_of_keeps kept hy

end Sides

end PassTuner
