import PassTuner.Number.Shortest
import PassTuner.Proofs.Number.Rounding

/-!
# The decimal that is written

The interval of a binary number holds what is rounded to it, and the decimal that is written for the
number is a point of the first grid that has one in the interval. Main statements: a quotient in the
interval of a number is rounded to that number; and for single precision a grid is always found,
whose point has no more digits than a single number can tell apart.
-/

namespace PassTuner

/-- The rational a decimal stands for. -/
def Decimal.value (d : Decimal) : ℚ := d.digits * 10 ^ d.exponent

namespace Shortest

theorem scaled_div (n : ℕ) (e k : ℤ) :
    ((scaled n e k).1 / (scaled n e k).2 : ℚ) = n * 2 ^ e * 10 ^ k := by
  rw [zpow_toNat 2 e, zpow_toNat 10 k]
  simp only [scaled, Nat.pow_eq]
  push_cast
  ring

theorem scaled_den_pos (n : ℕ) (e k : ℤ) : 0 < (scaled n e k).2 :=
  Nat.mul_pos (Nat.two_pow_pos _) (Nat.pow_pos (by norm_num))

namespace Interval

variable {i : Interval} {c : ℕ} {k : ℤ}

/-- A number of quarters of the unit as a rational. -/
def point (i : Interval) (quarters : ℕ) : ℚ := quarters * 2 ^ i.exponent

/-- The rational lies in the interval, at whose ends only if it is closed. -/
def Contains (i : Interval) (q : ℚ) : Prop :=
  if i.closed then i.point i.low ≤ q ∧ q ≤ i.point i.high
  else i.point i.low < q ∧ q < i.point i.high

theorem holds_iff : i.holds c k = true ↔ i.Contains (c * 10 ^ k) := by
  have den : (0 : ℚ) < (scaled c (-i.exponent) k).2 := by exact_mod_cast scaled_den_pos _ _ _
  have unit : (0 : ℚ) < 2 ^ i.exponent := zpow_pos two_pos _
  have meant : (c * 10 ^ k : ℚ) =
      (scaled c (-i.exponent) k).1 / (scaled c (-i.exponent) k).2 * 2 ^ i.exponent := by
    rw [scaled_div, zpow_neg]
    field_simp
  have below (n : ℕ) : n * (scaled c (-i.exponent) k).2 ≤ (scaled c (-i.exponent) k).1 ↔
      i.point n ≤ c * 10 ^ k := by
    rw [meant, point, mul_le_mul_iff_left₀ unit, le_div_iff₀ den]
    exact_mod_cast Iff.rfl
  have above (n : ℕ) : (scaled c (-i.exponent) k).1 ≤ n * (scaled c (-i.exponent) k).2 ↔
      c * 10 ^ k ≤ i.point n := by
    rw [meant, point, mul_le_mul_iff_left₀ unit, div_le_iff₀ den]
    exact_mod_cast Iff.rfl
  simp only [holds, Contains]
  split_ifs
  · simp [below, above]
  · simp [← not_le, below, above]

theorem Contains.le {q : ℚ} (h : i.Contains q) : i.point i.low ≤ q ∧ q ≤ i.point i.high := by
  rw [Contains] at h
  split_ifs at h
  · exact h
  · exact ⟨h.1.le, h.2.le⟩

theorem contains_of_lt {q : ℚ} (low : i.point i.low < q) (high : q < i.point i.high) :
    i.Contains q := by
  rw [Contains]
  split_ifs
  · exact ⟨low.le, high.le⟩
  · exact ⟨low, high⟩

/-- The last point of a grid that is not above the middle, as a multiple. -/
def floor (i : Interval) (k : ℤ) : ℕ :=
  (scaled i.middle i.exponent (-k)).1 / (scaled i.middle i.exponent (-k)).2

theorem floor_bounds (i : Interval) (k : ℤ) :
    (i.floor k * 10 ^ k : ℚ) ≤ i.point i.middle ∧ i.point i.middle < (i.floor k + 1) * 10 ^ k := by
  have den : (0 : ℚ) < (scaled i.middle i.exponent (-k)).2 := by exact_mod_cast scaled_den_pos _ _ _
  have grid : (0 : ℚ) < 10 ^ k := zpow_pos (by norm_num) _
  have meant : i.point i.middle =
      (scaled i.middle i.exponent (-k)).1 / (scaled i.middle i.exponent (-k)).2 * 10 ^ k := by
    rw [scaled_div, zpow_neg, point]
    field_simp
  rw [meant, mul_le_mul_iff_left₀ grid, mul_lt_mul_iff_left₀ grid, le_div_iff₀ den, div_lt_iff₀ den]
  constructor
  · exact_mod_cast Nat.div_mul_le_self _ _
  · exact_mod_cast Nat.lt_mul_of_div_lt (Nat.lt_succ_self _) (scaled_den_pos _ _ _)

theorem onGrid?_cases {tie : Tie} (h : i.onGrid? tie k = some c) :
    i.holds c k = true ∧ (c = i.floor k ∨ c = i.floor k + 1) := by
  have floor_eq : (scaled i.middle i.exponent (-k)).1 / (scaled i.middle i.exponent (-k)).2 =
      i.floor k := rfl
  simp only [onGrid?, floor_eq] at h
  split at h
  · cases h
  · rename_i below _
    cases h
    exact ⟨(Bool.and_eq_true_iff.1 below).1, .inl rfl⟩
  · rename_i _ above
    cases h
    exact ⟨above, .inr rfl⟩
  · rename_i below above
    have below := (Bool.and_eq_true_iff.1 below).1
    split_ifs at h
    · cases h
      exact ⟨below, .inl rfl⟩
    · cases h
      exact ⟨above, .inr rfl⟩
    · cases tie with
      | up =>
        cases h
        exact ⟨above, .inr rfl⟩
      | toEven =>
        cases h
        rcases Nat.mod_two_eq_zero_or_one (i.floor k) with even | odd
        · rw [even]
          exact ⟨below, .inl rfl⟩
        · rw [odd]
          exact ⟨above, .inr rfl⟩

/-- What is found on a grid lies next to the middle. -/
theorem onGrid?_spec {tie : Tie} (h : i.onGrid? tie k = some c) :
    i.Contains (c * 10 ^ k) ∧ |c * 10 ^ k - i.point i.middle| ≤ 10 ^ k := by
  obtain ⟨inside, place⟩ := onGrid?_cases h
  obtain ⟨low, high⟩ := i.floor_bounds k
  refine ⟨holds_iff.1 inside, ?_⟩
  rw [abs_le]
  rcases place with rfl | rfl
  · constructor <;> linarith
  · push_cast
    constructor <;> linarith

theorem onGrid?_ne_none {tie : Tie} (inside : i.Contains (i.floor k * 10 ^ k) ∧ i.floor k ≠ 0 ∨
    i.Contains ((i.floor k + 1 : ℕ) * 10 ^ k)) : i.onGrid? tie k ≠ none := by
  have floor_eq : (scaled i.middle i.exponent (-k)).1 / (scaled i.middle i.exponent (-k)).2 =
      i.floor k := rfl
  have found : (i.holds (i.floor k) k && i.floor k != 0) = true ∨
    i.holds (i.floor k + 1) k = true :=
    inside.imp (fun h => by simp [holds_iff.2 h.1, h.2]) holds_iff.2
  simp only [onGrid?, floor_eq]
  split
  · simp_all
  · simp
  · simp
  · split_ifs <;> simp
    cases tie <;> simp

end Interval

/-! ## The interval of a number -/

variable {f : BinaryFormat} {m : ℕ} {e : ℤ}

/-- How far the interval reaches below its number, in units of the last place. -/
def reach (f : BinaryFormat) (m : ℕ) (e : ℤ) : ℚ :=
  if m = f.hiddenBit ∧ f.minExponent < e then 1 / 4 else 1 / 2

theorem quarter_unit (e : ℤ) : (2 : ℚ) ^ (e - 2) = 2 ^ e / 4 := by
  rw [zpow_sub₀ two_ne_zero]
  norm_num

theorem point_middle (f : BinaryFormat) (m : ℕ) (e : ℤ) :
    (interval f m e).point (interval f m e).middle = m * 2 ^ e := by
  simp only [interval, Interval.point, quarter_unit]
  push_cast
  ring

theorem point_high (f : BinaryFormat) (m : ℕ) (e : ℤ) :
    (interval f m e).point (interval f m e).high = (m + 1 / 2) * 2 ^ e := by
  simp only [interval, Interval.point, quarter_unit]
  push_cast
  ring

theorem point_low (f : BinaryFormat) (hm : 0 < m) (e : ℤ) :
    (interval f m e).point (interval f m e).low = (m - reach f m e) * 2 ^ e := by
  simp only [interval, Interval.point, quarter_unit, reach, Bool.and_eq_true, beq_iff_eq,
    decide_eq_true_eq]
  split_ifs
  · rw [Nat.cast_sub (by omega)]
    push_cast
    ring
  · rw [Nat.cast_sub (by omega)]
    push_cast
    ring

theorem closed_iff : (interval f m e).closed = true ↔ Even m := by
  simp [interval, Nat.even_iff]

theorem contains_of_odd {q : ℚ} (h : (interval f m e).Contains q) (odd : ¬Even m) :
    (interval f m e).point (interval f m e).low < q ∧
      q < (interval f m e).point (interval f m e).high := by
  rw [Interval.Contains, if_neg (mt closed_iff.1 odd)] at h
  exact h

theorem reach_le (f : BinaryFormat) (m : ℕ) (e : ℤ) :
    1 / 4 ≤ reach f m e ∧ reach f m e ≤ 1 / 2 := by
  rw [reach]
  split_ifs <;> norm_num

/-- In the unit of a number, the number is nearest to all of its interval. -/
theorem nearest_of_contains (hm : 0 < m) {q : ℚ} (h : (interval f m e).Contains q) :
    Nearest (q / 2 ^ e) m := by
  have unit : (0 : ℚ) < 2 ^ e := zpow_pos two_pos _
  have reach := reach_le f m e
  have scale (x : ℚ) : x * 2 ^ e / 2 ^ e = x := mul_div_cancel_right₀ _ unit.ne'
  by_cases even : Even m
  · obtain ⟨low, high⟩ := h.le
    rw [point_low f hm, ← le_div_iff₀ unit] at low
    rw [point_high, ← div_le_iff₀ unit] at high
    have close : |q / 2 ^ e - m| ≤ 1 / 2 := abs_le.2 ⟨by linarith, by linarith⟩
    rcases lt_or_eq_of_le close with lt | eq
    · exact .inl lt
    · exact .inr ⟨eq, even⟩
  · obtain ⟨low, high⟩ := contains_of_odd h even
    rw [point_low f hm, ← lt_div_iff₀ unit] at low
    rw [point_high, ← div_lt_iff₀ unit] at high
    exact .inl (abs_lt.2 ⟨by linarith, by linarith⟩)

theorem hiddenBit_zpow (f : BinaryFormat) :
    (f.hiddenBit : ℚ) = 2 ^ ((f.precision - 1 : ℕ) : ℤ) := by
  simp [BinaryFormat.hiddenBit]

/-- What lies in the interval of a number is rounded to it. -/
theorem nearestRatio_of_contains {num den : ℕ} (hm : 0 < m) (canonical : f.Canonical m e)
    (finite : f.encode m e ≤ f.infinityBits) (hnum : 0 < num) (hden : 0 < den)
    (h : (interval f m e).Contains (num / den)) : f.nearestRatio num den = f.encode m e := by
  obtain ⟨log, r, rounds, bits⟩ := f.nearestRatio_rounds hnum hden
  obtain ⟨low, high⟩ := h.le
  rw [point_low f hm] at low
  rw [point_high] at high
  have unit : (0 : ℚ) < 2 ^ e := zpow_pos two_pos _
  have reach_bounds := reach_le f m e
  by_cases same : f.unit log = e
  · have near := rounds.nearest
    rw [same] at near
    rw [bits, same, near.unique (nearest_of_contains hm h), min_eq_left finite]
  · -- Otherwise the quotient lies below a power of two, and its unit is half as large.
    have above : log < (f.precision - 1 : ℕ) + 1 + e := by
      have bound : (m : ℚ) + 1 ≤ 2 * f.hiddenBit := by exact_mod_cast canonical.bound
      refine (zpow_lt_zpow_iff_right₀ (one_lt_two : (1 : ℚ) < 2)).1 ?_
      calc (2 : ℚ) ^ log ≤ num / den := rounds.low
        _ ≤ (m + 1 / 2) * 2 ^ e := high
        _ < 2 * f.hiddenBit * 2 ^ e := by gcongr; linarith
        _ = 2 ^ (((f.precision - 1 : ℕ) : ℤ) + 1 + e) := by
          rw [hiddenBit_zpow, zpow_add₀ two_ne_zero, zpow_add₀ two_ne_zero]
          ring
    have least := canonical.least
    have hunit : f.unit log = max (log - (f.precision - 1 : ℕ)) f.minExponent := rfl
    have below : log < (f.precision - 1 : ℕ) + e := by omega
    have lead : f.hiddenBit ≤ m := canonical.leading.resolve_right (by omega)
    have lead' : (f.hiddenBit : ℚ) ≤ m := by exact_mod_cast lead
    have short : (num / den : ℚ) < f.hiddenBit * 2 ^ e := by
      calc (num / den : ℚ) < 2 ^ (log + 1) := rounds.high
        _ ≤ 2 ^ (((f.precision - 1 : ℕ) : ℤ) + e) := zpow_le_zpow_right₀ one_le_two (by omega)
        _ = f.hiddenBit * 2 ^ e := by rw [zpow_add₀ two_ne_zero, hiddenBit_zpow]
    have power : m = f.hiddenBit := by
      have : (m - reach f m e) * 2 ^ e < f.hiddenBit * 2 ^ e := low.trans_lt short
      have := lt_of_mul_lt_mul_right this unit.le
      have : (m : ℚ) < (f.hiddenBit + 1 : ℕ) := by push_cast; linarith
      exact le_antisymm (Nat.lt_succ_iff.1 (by exact_mod_cast this)) lead
    have hreach : reach f m e = 1 / 4 := if_pos ⟨power, by omega⟩
    have lead_pos : (1 : ℚ) ≤ f.hiddenBit := by exact_mod_cast f.hiddenBit_pos
    have hlog : log = (f.precision - 1 : ℕ) + e - 1 := by
      have : (2 : ℚ) ^ (((f.precision - 1 : ℕ) : ℤ) + (e - 1)) < 2 ^ (log + 1) := by
        calc (2 : ℚ) ^ (((f.precision - 1 : ℕ) : ℤ) + (e - 1)) = f.hiddenBit / 2 * 2 ^ e := by
              rw [zpow_add₀ two_ne_zero, zpow_sub_one₀ two_ne_zero, hiddenBit_zpow]
              ring
          _ ≤ (m - reach f m e) * 2 ^ e := by rw [hreach]; gcongr; linarith
          _ ≤ num / den := low
          _ < 2 ^ (log + 1) := rounds.high
      have := (zpow_lt_zpow_iff_right₀ one_lt_two).1 this
      omega
    have hunit' : f.unit log = e - 1 := by omega
    have half (x : ℚ) : x / 2 ^ (e - 1) = 2 * (x / 2 ^ e) := by
      rw [zpow_sub_one₀ two_ne_zero]
      field_simp
    have near : Nearest ((num / den : ℚ) / 2 ^ (e - 1)) (2 * f.hiddenBit) := by
      rw [hreach, ← le_div_iff₀ unit, power] at low
      rw [← div_lt_iff₀ unit] at short
      rw [half]
      have bound : |2 * ((num / den : ℚ) / 2 ^ e) - 2 * f.hiddenBit| ≤ 1 / 2 :=
        abs_le.2 ⟨by linarith, by linarith⟩
      rcases lt_or_eq_of_le bound with lt | eq
      · exact .inl (by push_cast; exact lt)
      · exact .inr ⟨by push_cast; exact eq, even_two_mul _⟩
    have exact' := rounds.nearest
    rw [hunit'] at exact'
    have carried : f.encode (2 * f.hiddenBit) (e - 1) = f.encode m e := by
      have count : (e - f.minExponent).toNat = (e - 1 - f.minExponent).toNat + 1 := by omega
      rw [BinaryFormat.encode, BinaryFormat.encode, count, power]
      ring
    rw [bits, hunit', exact'.unique near, carried, min_eq_left finite]

/-! ## The decade of a number -/

/-- Powers of two lie next to powers of ten by the decimal logarithm of two to five digits. -/
theorem decades_nat : ∀ n < 1200,
    (10 ^ (n * 30103 / 100000) ≤ 10 * 2 ^ n ∧ 2 ^ (n + 1) ≤ 10 ^ (n * 30103 / 100000 + 2)) ∧
      2 ^ n ≤ 10 ^ ((n * 30103 + 99999) / 100000 + 1) ∧
      2 * 10 ^ ((n * 30103 + 99999) / 100000) ≤ 100 * 2 ^ n := by
  decide +kernel

theorem decades {l : ℤ} (small : l.natAbs < 1200) :
    (10 : ℚ) ^ (l * 30103 / 100000 - 1) ≤ 2 ^ l ∧
      (2 : ℚ) ^ (l + 1) ≤ 10 ^ (l * 30103 / 100000 + 2) := by
  have ten : (10 : ℚ) ≠ 0 := by norm_num
  obtain ⟨⟨low, high⟩, low', high'⟩ := decades_nat l.natAbs small
  generalize hn : l.natAbs = n at low high low' high'
  rcases lt_or_ge l 0 with negative | nonneg
  · obtain rfl : l = -n := by omega
    have quotient : -(n : ℤ) * 30103 / 100000 = -((n * 30103 + 99999) / 100000 : ℕ) := by omega
    generalize (n * 30103 + 99999) / 100000 = k at quotient low' high'
    have low' : (2 : ℚ) ^ n ≤ 10 ^ (k + 1) := by exact_mod_cast low'
    have high' : (2 : ℚ) * 10 ^ k ≤ 100 * 2 ^ n := by exact_mod_cast high'
    have ten_pos : (0 : ℚ) < 10 ^ k := by positivity
    have two_pos : (0 : ℚ) < 2 ^ n := by positivity
    rw [quotient, zpow_sub_one₀ ten, zpow_add_one₀ two_ne_zero, zpow_add₀ ten, zpow_neg, zpow_neg,
      zpow_natCast, zpow_natCast]
    constructor
    · rw [← mul_inv, inv_le_inv₀ (by positivity) two_pos, ← pow_succ]
      exact low'
    · rw [inv_mul_eq_div, inv_mul_eq_div, div_le_div_iff₀ two_pos ten_pos]
      norm_num
      exact high'
  · obtain rfl : l = n := by omega
    have quotient : (n : ℤ) * 30103 / 100000 = (n * 30103 / 100000 : ℕ) := by omega
    generalize n * 30103 / 100000 = k at quotient low high
    have low : (10 : ℚ) ^ k ≤ 10 * 2 ^ n := by exact_mod_cast low
    have high : (2 : ℚ) ^ (n + 1) ≤ 10 ^ (k + 2) := by exact_mod_cast high
    rw [quotient]
    constructor
    · rw [zpow_sub_one₀ ten, zpow_natCast, zpow_natCast]
      linarith
    · exact_mod_cast high

/-- A number lies in the decade below its magnitude. -/
theorem Interval.magnitude_spec {i : Interval} (pos : 0 < i.middle)
    (small : ((i.middle.log2 : ℤ) + i.exponent).natAbs < 1200) :
    (10 : ℚ) ^ (i.magnitude - 1) ≤ i.point i.middle ∧ i.point i.middle < 10 ^ i.magnitude := by
  have unit : (0 : ℚ) < 2 ^ i.exponent := zpow_pos two_pos _
  have middle_low : ((2 ^ i.middle.log2 : ℕ) : ℚ) ≤ i.middle := by
    exact_mod_cast Nat.log2_self_le pos.ne'
  have middle_high : (i.middle : ℚ) < (2 ^ (i.middle.log2 + 1) : ℕ) := by
    exact_mod_cast Nat.lt_log2_self
  push_cast at middle_low middle_high
  obtain ⟨decade_low, decade_high⟩ := decades small
  have low : (10 : ℚ) ^ (((i.middle.log2 : ℤ) + i.exponent) * 30103 / 100000 - 1) ≤
      i.point i.middle := by
    refine decade_low.trans ?_
    rw [point, zpow_add₀ two_ne_zero, zpow_natCast]
    gcongr
  have high : i.point i.middle <
      (10 : ℚ) ^ (((i.middle.log2 : ℤ) + i.exponent) * 30103 / 100000 - 1 + 3) := by
    calc i.point i.middle < 2 ^ (i.middle.log2 + 1) * 2 ^ i.exponent := by rw [point]; gcongr
      _ = 2 ^ ((i.middle.log2 : ℤ) + i.exponent + 1) := by
        rw [show (i.middle.log2 : ℤ) + i.exponent + 1 = (i.middle.log2 + 1 : ℕ) + i.exponent by
          push_cast; ring, zpow_add₀ two_ne_zero, zpow_natCast]
      _ ≤ _ := decade_high
      _ = _ := by congr 1; ring
  have reaches (k : ℤ) : (scaled i.middle i.exponent (-k)).2 ≤ (scaled i.middle i.exponent (-k)).1 ↔
      (10 : ℚ) ^ k ≤ i.point i.middle := by
    have den : (0 : ℚ) < (scaled i.middle i.exponent (-k)).2 := by
      exact_mod_cast scaled_den_pos _ _ _
    have grid : (0 : ℚ) < 10 ^ k := zpow_pos (by norm_num) _
    rw [← Nat.cast_le (α := ℚ), ← one_le_div den, scaled_div, zpow_neg, ← div_eq_mul_inv,
      one_le_div grid, point]
  -- How many of the four powers do not exceed the number: the first, not the last, and the second
  -- if the third.
  generalize hestimate : ((i.middle.log2 : ℤ) + i.exponent) * 30103 / 100000 - 1 =
    estimate at low high
  have mono {a b : ℤ} (hab : a ≤ b) (hb : (10 : ℚ) ^ b ≤ i.point i.middle) :
      (10 : ℚ) ^ a ≤ i.point i.middle := (zpow_le_zpow_right₀ (by norm_num) hab).trans hb
  have last : ¬(10 : ℚ) ^ (estimate + 3) ≤ i.point i.middle := not_le.2 high
  have top : i.magnitude = estimate + ((List.range 4).filter fun (n : ℕ) =>
      decide ((10 : ℚ) ^ (estimate + n) ≤ i.point i.middle)).length := by
    simp only [magnitude, hestimate, reaches]
  rw [top]
  by_cases second : (10 : ℚ) ^ (estimate + 1) ≤ i.point i.middle
  · by_cases third : (10 : ℚ) ^ (estimate + 2) ≤ i.point i.middle
    · have count : ((List.range 4).filter fun (n : ℕ) =>
          decide ((10 : ℚ) ^ (estimate + n) ≤ i.point i.middle)).length = 3 := by
        simp [List.range_succ, low, second, third, last]
      rw [count]
      exact ⟨mono (by omega) third, high⟩
    · have count : ((List.range 4).filter fun (n : ℕ) =>
          decide ((10 : ℚ) ^ (estimate + n) ≤ i.point i.middle)).length = 2 := by
        simp [List.range_succ, low, second, third, last]
      rw [count]
      exact ⟨mono (by omega) second, not_le.1 third⟩
  · have third : ¬(10 : ℚ) ^ (estimate + 2) ≤ i.point i.middle := fun h =>
      second (mono (by omega) h)
    have count : ((List.range 4).filter fun (n : ℕ) =>
        decide ((10 : ℚ) ^ (estimate + n) ≤ i.point i.middle)).length = 1 := by
      simp [List.range_succ, low, second, third, last]
    rw [count]
    exact ⟨mono (by omega) low, not_le.1 second⟩

/-! ## The grid that is found -/

/-- A grid that is finer than twice the reach has a point in the interval. -/
theorem onGrid?_fine (tie : Tie) (hm : 0 < m) {k : ℤ} (below : (10 : ℚ) ^ k ≤ m * 2 ^ e)
    (fine : (10 : ℚ) ^ k < 2 * reach f m e * 2 ^ e) : (interval f m e).onGrid? tie k ≠ none := by
  have unit : (0 : ℚ) < 2 ^ e := zpow_pos two_pos _
  have reach_bounds := reach_le f m e
  obtain ⟨low, high⟩ := (interval f m e).floor_bounds k
  rw [point_middle] at low high
  have grid : (0 : ℚ) < 10 ^ k := zpow_pos (by norm_num) _
  -- The nearer of the two points next to the number is not as far away as the interval reaches.
  rcases le_or_gt (m * 2 ^ e - (interval f m e).floor k * 10 ^ k : ℚ) (10 ^ k / 2) with near | far
  · refine Interval.onGrid?_ne_none (.inl ⟨Interval.contains_of_lt ?_ ?_, fun zero => ?_⟩)
    · rw [point_low f hm, sub_mul]
      linarith
    · rw [point_high, add_mul]
      linarith
    · rw [zero] at high
      norm_num at high
      linarith
  · refine Interval.onGrid?_ne_none (.inr (Interval.contains_of_lt ?_ ?_))
    · rw [point_low f hm, sub_mul]
      push_cast
      nlinarith
    · rw [point_high, add_mul]
      push_cast
      nlinarith

theorem stripZeros_spec (fuel : ℕ) (d : Decimal) : (stripZeros fuel d).value = d.value ∧
    (stripZeros fuel d).digits ≤ d.digits ∧ d.exponent ≤ (stripZeros fuel d).exponent := by
  induction fuel generalizing d with
  | zero => exact ⟨rfl, le_rfl, le_rfl⟩
  | succ fuel ih =>
    rw [stripZeros]
    split_ifs with h
    · obtain ⟨value, digits, exponent⟩ := ih ⟨d.digits / 10, d.exponent + 1⟩
      refine ⟨value.trans ?_, digits.trans (Nat.div_le_self _ _), by simp only at exponent; omega⟩
      have tens : ((d.digits / 10 : ℕ) : ℚ) * 10 = d.digits := by
        exact_mod_cast Nat.div_mul_cancel (Nat.dvd_of_mod_eq_zero h.2)
      rw [Decimal.value, Decimal.value, zpow_add_one₀ (by norm_num), ← tens]
      ring
    · exact ⟨rfl, le_rfl, le_rfl⟩

/-- A decimal stands for a point of the grid `10 ^ k`, in the interval of a number and next to it.
-/
structure Found (f : BinaryFormat) (m : ℕ) (e : ℤ) (d : Decimal) (point : ℕ) (k : ℤ) : Prop where
  inside : (interval f m e).Contains ((point : ℚ) * 10 ^ k)
  near : |(point : ℚ) * 10 ^ k - m * 2 ^ e| ≤ 10 ^ k
  value : d.value = point * 10 ^ k
  digits : d.digits ≤ point
  coarse : k ≤ d.exponent

/-- If a grid below the decade of a number has a point in its interval, then the decimal of the
number stands for a point of that grid or of a coarser one. -/
theorem shortest_found (tie : Tie) (hm : 0 < m) (small : ((4 * m).log2 + (e - 2)).natAbs < 1200)
    {n : ℕ} (hn : n < 17)
    (fine : (interval f m e).onGrid? tie ((interval f m e).magnitude - (n + 1 : ℕ)) ≠ none) :
    ∃ point k, Found f m e (f.shortest tie m e) point k ∧ point ≤ 10 ^ (n + 1) ∧
      (interval f m e).magnitude - (n + 1 : ℕ) ≤ k ∧ k < (interval f m e).magnitude := by
  obtain ⟨_, below⟩ := Interval.magnitude_spec (i := interval f m e) (by simp [interval, hm]) small
  rw [point_middle] at below
  generalize htop : (interval f m e).magnitude = top at *
  -- The search goes from coarse to fine, so it ends on this grid at the latest.
  obtain ⟨j, c, hj, hc, hfound⟩ : ∃ j c, j ≤ n ∧
      (interval f m e).onGrid? tie (top - (j + 1 : ℕ)) = some c ∧
      f.shortest tie m e = stripZeros 17 ⟨c, top - (j + 1 : ℕ)⟩ := by
    have split : List.range 17 = List.range (n + 1) ++ (List.range (16 - n)).map (n + 1 + ·) := by
      rw [← List.range_add]
      congr 1
      omega
    have search : ((List.range (n + 1)).findSome? fun j =>
        ((interval f m e).onGrid? tie (top - (j + 1 : ℕ))).map fun c =>
          stripZeros 17 ⟨c, top - (j + 1 : ℕ)⟩) ≠ none := by
      rw [Ne, List.findSome?_eq_none_iff]
      intro none
      exact fine (Option.map_eq_none_iff.1 (none n (List.mem_range.2 (Nat.lt_succ_self n))))
    obtain ⟨d, hd⟩ := Option.ne_none_iff_exists'.1 search
    obtain ⟨j, hj, hmap⟩ := List.exists_of_findSome?_eq_some hd
    obtain ⟨c, hc, rfl⟩ := Option.map_eq_some_iff.1 hmap
    refine ⟨j, c, Nat.lt_succ_iff.1 (List.mem_range.1 hj), hc, ?_⟩
    simp only [BinaryFormat.shortest, if_neg hm.ne', htop, split, List.findSome?_append, hd,
      Option.some_or, Option.getD_some]
  obtain ⟨inside, near⟩ := Interval.onGrid?_spec hc
  rw [point_middle] at near
  obtain ⟨value, digits, coarse⟩ := stripZeros_spec 17 ⟨c, top - (j + 1 : ℕ)⟩
  rw [← hfound] at value digits coarse
  refine ⟨c, top - (j + 1 : ℕ), ⟨inside, near, value, digits, coarse⟩, ?_, by omega, by omega⟩
  have ten : (10 : ℚ) ≠ 0 := by norm_num
  have grid : (0 : ℚ) < 10 ^ (top - (j + 1 : ℕ) : ℤ) := zpow_pos (by norm_num) _
  have decade : (10 : ℚ) ^ top = 10 ^ (j + 1) * 10 ^ (top - (j + 1 : ℕ) : ℤ) := by
    rw [← zpow_natCast, ← zpow_add₀ ten]
    congr 1
    omega
  have count : (c : ℚ) < 10 ^ (j + 1) + 1 := by
    refine lt_of_mul_lt_mul_right ?_ grid.le
    have := (abs_le.1 near).2
    rw [add_mul, ← decade]
    linarith
  calc c ≤ 10 ^ (j + 1) := Nat.lt_succ_iff.1 (by exact_mod_cast count)
    _ ≤ 10 ^ (n + 1) := Nat.pow_le_pow_right (by norm_num) (by omega)

end Shortest

end PassTuner
