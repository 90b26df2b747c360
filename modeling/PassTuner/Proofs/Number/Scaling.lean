import PassTuner.Proofs.Number.Rounding

/-!
# How exactly decimals are read

Reading a decimal rounds twice: the power of ten, and the product or quotient. Neither rounding
changes a number by more than its `2 ^ 53`rd part, nor at all when 53 bits hold the exact result.
Main statement: what is read for `digits * 10 ^ exponent` differs from it by little more than its `2
^ 52`nd part; by half of that if the power of ten is exact; and by nothing if the number is then a
double.
-/

namespace PassTuner

namespace Dyadic

/-- The rational that is meant. -/
def value (x : Dyadic) : ℚ := x.significand * 2 ^ x.exponent

theorem den_pos (x : Dyadic) : 0 < x.den := Nat.two_pow_pos _

theorem num_div_den (x : Dyadic) : (x.num / x.den : ℚ) = x.value := by
  simp only [num, den, value, zpow_toNat 2 x.exponent, Nat.cast_mul, Nat.pow_eq, Nat.cast_pow,
    Nat.cast_ofNat]
  ring

/-- A rational that 53 bits hold. -/
def Holds53 (q : ℚ) : Prop := ∃ (n : ℕ) (g : ℤ), n < 2 ^ 53 ∧ q = n * 2 ^ g

/-- A rational of a size at which doubles have all their bits. -/
structure Normal (q : ℚ) : Prop where
  low : (2 : ℚ) ^ (-1022 : ℤ) ≤ q
  high : q < 2 ^ (1023 : ℤ)

variable {num den : ℕ}

/-- The significand of a normal number has all its bits. -/
theorem significand_bounds {q : ℚ} {log : ℤ} {r : ℕ} (h : BinaryFormat.double.Rounds q log r)
    (hunit : BinaryFormat.double.unit log = log - 52) : 2 ^ 52 ≤ r ∧ r ≤ 2 ^ 53 := by
  have near := abs_le.1 h.nearest.le
  rw [hunit] at near
  have pos : (0 : ℚ) < 2 ^ (log - 52) := zpow_pos two_pos _
  have size (k : ℤ) : (2 : ℚ) ^ (log + k) = 2 ^ (52 + k) * 2 ^ (log - 52) := by
    rw [← zpow_add₀ two_ne_zero]
    congr 1
    ring
  have low : (2 : ℚ) ^ 52 ≤ q / 2 ^ (log - 52) := by
    rw [le_div_iff₀ pos]
    have := h.low
    have step := size 0
    norm_num at step ⊢
    linarith
  have high : q / 2 ^ (log - 52) < (2 : ℚ) ^ 53 := by
    rw [div_lt_iff₀ pos]
    have := h.high
    have step := size 1
    norm_num at step ⊢
    linarith
  constructor
  · have : (2 : ℚ) ^ 52 < r + 1 := by linarith
    exact Nat.lt_succ_iff.1 (by exact_mod_cast this)
  · have : (r : ℚ) < 2 ^ 53 + 1 := by linarith
    exact Nat.lt_succ_iff.1 (by exact_mod_cast this)

/-- A normal quotient becomes a double, rounded in units of its last place. -/
theorem nearest?_rounds (hnum : 0 < num) (hden : 0 < den) (normal : Normal (num / den)) :
    ∃ x log r, nearest? num den = some x ∧ BinaryFormat.double.Rounds (num / den) log r ∧
      BinaryFormat.double.unit log = log - 52 ∧ x.value = r * 2 ^ (log - 52) := by
  obtain ⟨log, r, rounds, bits⟩ := BinaryFormat.double.nearestRatio_rounds hnum hden
  have log_low : -1022 ≤ log := by
    have : (2 : ℚ) ^ (-1022 : ℤ) < 2 ^ (log + 1) := normal.low.trans_lt rounds.high
    have := (zpow_lt_zpow_iff_right₀ one_lt_two).1 this
    omega
  have log_high : log < 1023 :=
    (zpow_lt_zpow_iff_right₀ one_lt_two).1 (rounds.low.trans_lt normal.high)
  have hunit : BinaryFormat.double.unit log = log - 52 := by
    have hp : (BinaryFormat.double.precision - 1 : ℕ) = 52 := by decide
    rw [BinaryFormat.unit, BinaryFormat.minExponent_double, hp]
    omega
  obtain ⟨low, high⟩ := significand_bounds rounds hunit
  -- A significand that was rounded up to one bit more is that of the next larger exponent.
  obtain ⟨m, e, canonical, same, value⟩ : ∃ m e, BinaryFormat.double.Canonical m e ∧
      BinaryFormat.double.encode m e = BinaryFormat.double.encode r (log - 52) ∧
      (m * 2 ^ e : ℚ) = r * 2 ^ (log - 52) := by
    rcases Nat.lt_or_ge r (2 ^ 53) with below | above
    · exact ⟨r, log - 52, ⟨by simp; omega, by simp; omega, .inl (by simp; omega)⟩, rfl, rfl⟩
    · have hr : r = 2 ^ 53 := le_antisymm high above
      refine ⟨2 ^ 52, log - 51, ⟨by simp, by simp; omega, .inl (by simp)⟩, ?_, ?_⟩
      · simp only [BinaryFormat.encode, BinaryFormat.minExponent_double,
          BinaryFormat.hiddenBit_double, hr]
        omega
      · rw [hr, show log - 51 = log - 52 + 1 by ring, zpow_add₀ two_ne_zero]
        norm_num
        ring
  have small : BinaryFormat.double.encode m e < BinaryFormat.double.infinityBits := by
    rw [same]
    simp only [BinaryFormat.encode, BinaryFormat.minExponent_double,
      BinaryFormat.hiddenBit_double, BinaryFormat.infinityBits_double]
    omega
  have decoded : BinaryFormat.double.decode (BinaryFormat.double.nearestRatio num den) =
      .finite false m e := by
    rw [bits, hunit, ← same, min_eq_left small.le]
    exact BinaryFormat.decode_encode canonical small
  exact ⟨⟨m, e⟩, log, r, by simp only [nearest?, decoded], rounds, hunit, value⟩

theorem nearest?_spec (hnum : 0 < num) (hden : 0 < den) (normal : Normal (num / den)) :
    ∃ x, nearest? num den = some x ∧ |x.value - num / den| ≤ num / den / 2 ^ 53 ∧
      (Holds53 (num / den) → x.value = num / den) := by
  obtain ⟨x, log, r, found, rounds, hunit, value⟩ := nearest?_rounds hnum hden normal
  have pos : (0 : ℚ) < 2 ^ (log - 52) := zpow_pos two_pos _
  have near := rounds.nearest
  rw [hunit] at near
  refine ⟨x, found, ?_, ?_⟩
  · have unit_small : (2 : ℚ) ^ (log - 52) * 2 ^ 52 ≤ num / den := by
      have step : (2 : ℚ) ^ (log - 52) * 2 ^ (52 : ℤ) = 2 ^ log := by
        rw [← zpow_add₀ two_ne_zero, sub_add_cancel]
      rw [show (2 : ℚ) ^ 52 = 2 ^ (52 : ℤ) by norm_num, step]
      exact rounds.low
    have error : |(num / den : ℚ) - r * 2 ^ (log - 52)| ≤ 1 / 2 * 2 ^ (log - 52) := by
      have h := mul_le_mul_of_nonneg_right near.le pos.le
      rwa [← abs_of_pos pos, ← abs_mul, abs_of_pos pos, sub_mul, div_mul_cancel₀ _ pos.ne'] at h
    rw [value, abs_sub_comm, le_div_iff₀ (by positivity)]
    calc |(num / den : ℚ) - r * 2 ^ (log - 52)| * 2 ^ 53
        ≤ 1 / 2 * 2 ^ (log - 52) * 2 ^ 53 := by gcongr
      _ = 2 ^ (log - 52) * 2 ^ 52 := by ring
      _ ≤ num / den := unit_small
  · rintro ⟨n, g, hn, hq⟩
    have npos : (0 : ℚ) < n := by
      have : (0 : ℚ) < n * 2 ^ g := hq ▸ rounds.pos
      exact pos_of_mul_pos_left this (zpow_pos two_pos _).le
    -- The unit of the last place divides the number.
    have fine : log - 52 ≤ g := by
      have : (2 : ℚ) ^ log < 2 ^ (53 + g) := by
        calc (2 : ℚ) ^ log ≤ n * 2 ^ g := hq ▸ rounds.low
          _ < 2 ^ 53 * 2 ^ g := by
            have : (n : ℚ) < 2 ^ 53 := by exact_mod_cast hn
            have gpos : (0 : ℚ) < 2 ^ g := zpow_pos two_pos _
            gcongr
          _ = 2 ^ (53 + g) := by rw [zpow_add₀ two_ne_zero]; norm_num
      have := (zpow_lt_zpow_iff_right₀ one_lt_two).1 this
      omega
    obtain ⟨k, hk⟩ := Int.eq_ofNat_of_zero_le (sub_nonneg.2 fine)
    have whole : (num / den : ℚ) / 2 ^ (log - 52) = (n * 2 ^ k : ℕ) := by
      rw [hq, div_eq_iff pos.ne', show g = (k : ℤ) + (log - 52) by omega, zpow_add₀ two_ne_zero,
        zpow_natCast]
      push_cast
      ring
    rw [whole] at near
    rw [value, near.unique (nearest_natCast _), ← whole, div_mul_cancel₀ _ pos.ne']

/-! ## Products and quotients -/

theorem normal_of_size {q : ℚ} (low : (1 / 2 ^ 250 : ℚ) ≤ q) (high : q ≤ 2 ^ 250) : Normal q where
  low := by
    calc (2 : ℚ) ^ (-1022 : ℤ) ≤ 2 ^ (-250 : ℤ) := zpow_le_zpow_right₀ one_le_two (by norm_num)
      _ = 1 / 2 ^ 250 := by norm_num
      _ ≤ q := low
  high := by
    calc q ≤ 2 ^ (250 : ℤ) := by norm_num at high ⊢; exact high
      _ < 2 ^ (1023 : ℤ) := zpow_lt_zpow_right₀ one_lt_two (by norm_num)

theorem times?_spec {x y : Dyadic} (pos : 0 < x.value * y.value)
    (normal : Normal (x.value * y.value)) :
    ∃ z, x.times? y = some z ∧ |z.value - x.value * y.value| ≤ x.value * y.value / 2 ^ 53 ∧
      (Holds53 (x.value * y.value) → z.value = x.value * y.value) := by
  have quotient : ((x.num * y.num : ℕ) / (x.den * y.den : ℕ) : ℚ) = x.value * y.value := by
    rw [← x.num_div_den, ← y.num_div_den]
    push_cast
    rw [div_mul_div_comm]
  have hnum : 0 < x.num * y.num := by
    rw [← quotient] at pos
    exact Nat.pos_of_ne_zero fun zero => by simp [zero] at pos
  have spec := nearest?_spec hnum (Nat.mul_pos x.den_pos y.den_pos) (quotient ▸ normal)
  rwa [quotient] at spec

theorem over?_spec {x y : Dyadic} (pos : 0 < x.value / y.value)
    (normal : Normal (x.value / y.value)) :
    ∃ z, x.over? y = some z ∧ |z.value - x.value / y.value| ≤ x.value / y.value / 2 ^ 53 ∧
      (Holds53 (x.value / y.value) → z.value = x.value / y.value) := by
  have quotient : ((x.num * y.den : ℕ) / (x.den * y.num : ℕ) : ℚ) = x.value / y.value := by
    rw [← x.num_div_den, ← y.num_div_den]
    push_cast
    rw [div_div_div_eq]
  rw [← quotient] at pos
  have hnum : 0 < x.num * y.den := Nat.pos_of_ne_zero fun zero => by simp [zero] at pos
  have hden : 0 < x.den * y.num := Nat.pos_of_ne_zero fun zero => by simp [zero] at pos
  have spec := nearest?_spec hnum hden (quotient ▸ normal)
  rwa [quotient] at spec

theorem powerOfTen?_spec {n : ℕ} (hn : n ≤ 55) :
    ∃ p, powerOfTen? n = some p ∧ |p.value - 10 ^ n| ≤ 10 ^ n / 2 ^ 53 ∧
      (n ≤ 22 → p.value = 10 ^ n) := by
  have size : (10 ^ n : ℚ) ≤ 10 ^ 55 := pow_le_pow_right₀ (by norm_num) hn
  have one : (1 : ℚ) ≤ 10 ^ n := one_le_pow₀ (by norm_num)
  have cast : ((10 ^ n : ℕ) / (1 : ℕ) : ℚ) = 10 ^ n := by simp
  have normal : Normal ((10 ^ n : ℕ) / (1 : ℕ)) := by
    rw [cast]
    exact normal_of_size (le_trans (by norm_num) one) (le_trans size (by norm_num))
  obtain ⟨p, found, error, exact'⟩ := nearest?_spec (Nat.pow_pos (by norm_num)) one_pos normal
  rw [cast] at error exact'
  refine ⟨p, found, error, fun small => exact' ⟨5 ^ n, n, ?_, ?_⟩⟩
  · calc 5 ^ n ≤ 5 ^ 22 := Nat.pow_le_pow_right (by norm_num) small
      _ < 2 ^ 53 := by norm_num
  · rw [zpow_natCast]
    push_cast
    rw [← mul_pow]
    norm_num

/-! ## Decimals -/

/-- How far the number that is read may be off, as a part of the decimal. -/
def readingError : ℚ := 1 / 2 ^ 52 + 1 / 2 ^ 100

theorem error_times {s a p z : ℚ} (hs : 0 < s) (hp : 0 < p) (power : |a - p| ≤ p / 2 ^ 53)
    (product : |z - s * a| ≤ s * a / 2 ^ 53) : |z - s * p| ≤ s * p * readingError := by
  have hpower := abs_le.1 power
  have hproduct := abs_le.1 product
  have above : s * a ≤ s * p + s * p / 2 ^ 53 := by nlinarith
  have below : s * p - s * p / 2 ^ 53 ≤ s * a := by nlinarith
  have small : 0 < s * p := mul_pos hs hp
  rw [readingError, abs_le]
  constructor <;> linarith

theorem error_over {s a p z : ℚ} (hs : 0 < s) (hp : 0 < p) (power : |a - p| ≤ p / 2 ^ 53)
    (quotient : |z - s / a| ≤ s / a / 2 ^ 53) : |z - s / p| ≤ s / p * readingError := by
  have hpower := abs_le.1 power
  have hquotient := abs_le.1 quotient
  have ha : 0 < a := by linarith
  have whole : s / a * a = s / p * p := by rw [div_mul_cancel₀ _ ha.ne', div_mul_cancel₀ _ hp.ne']
  have posa : 0 < s / a := div_pos hs ha
  have posp : 0 < s / p := div_pos hs hp
  -- Both quotients of one number, by powers that are nearly the same.
  have above : s / a * (1 - 1 / 2 ^ 53) ≤ s / p := by
    refine le_of_mul_le_mul_right ?_ hp
    calc s / a * (1 - 1 / 2 ^ 53) * p = s / a * (p - p / 2 ^ 53) := by ring
      _ ≤ s / a * a := by gcongr; linarith
      _ = s / p * p := whole
  have below : s / p ≤ s / a * (1 + 1 / 2 ^ 53) := by
    refine le_of_mul_le_mul_right ?_ hp
    calc s / p * p = s / a * a := whole.symm
      _ ≤ s / a * (p + p / 2 ^ 53) := by gcongr; linarith
      _ = s / a * (1 + 1 / 2 ^ 53) * p := by ring
  rw [readingError, abs_le]
  constructor <;> linarith

theorem scaled?_spec {s : ℕ} (pos : 0 < s) (hs : s < 2 ^ 53) {e : ℤ} (he : e.natAbs ≤ 55) :
    ∃ x, scaled? s e = some x ∧ |x.value - s * 10 ^ e| ≤ s * 10 ^ e * readingError ∧
      (e.natAbs ≤ 22 → |x.value - s * 10 ^ e| ≤ s * 10 ^ e / 2 ^ 53 ∧
        (Holds53 (s * 10 ^ e) → x.value = s * 10 ^ e)) := by
  have spos : (1 : ℚ) ≤ s := by exact_mod_cast pos
  have sbound : (s : ℚ) ≤ 10 ^ 16 := by
    have : (s : ℚ) ≤ 2 ^ 53 := by exact_mod_cast hs.le
    exact this.trans (by norm_num)
  obtain ⟨d, digits, dvalue⟩ : ∃ d, nearest? s 1 = some d ∧ d.value = s := by
    have cast : (s / (1 : ℕ) : ℚ) = s := by simp
    have normal : Normal (s / (1 : ℕ)) := by
      rw [cast]
      exact normal_of_size (le_trans (by norm_num) spos) (sbound.trans (by norm_num))
    obtain ⟨d, found, _, exact'⟩ := nearest?_spec pos one_pos normal
    rw [cast] at exact'
    exact ⟨d, found, exact' ⟨s, 0, hs, by simp⟩⟩
  have small : ¬(lastPower : ℤ) < e := by
    simp only [lastPower]
    omega
  obtain ⟨p, power, perror, pexact⟩ := powerOfTen?_spec he
  have ten_low : (1 : ℚ) ≤ 10 ^ e.natAbs := one_le_pow₀ (by norm_num)
  have ten_high : (10 ^ e.natAbs : ℚ) ≤ 10 ^ 55 := pow_le_pow_right₀ (by norm_num) he
  have near := abs_le.1 perror
  have plow : (1 / 2 : ℚ) ≤ p.value := by linarith
  have phigh : p.value ≤ 10 ^ 56 := by linarith
  rcases lt_or_ge e 0 with negative | nonneg
  · obtain ⟨n, rfl⟩ : ∃ n : ℕ, e = -n := ⟨e.natAbs, by omega⟩
    simp only [Int.natAbs_neg, Int.natAbs_natCast] at *
    have hpos : 0 < d.value / p.value := by rw [dvalue]; exact div_pos (by linarith) (by linarith)
    have normal : Normal (d.value / p.value) := by
      rw [dvalue]
      have ppos : 0 < p.value := by linarith
      refine normal_of_size ?_ ?_
      · rw [le_div_iff₀ ppos]
        calc (1 / 2 ^ 250 : ℚ) * p.value ≤ 1 / 2 ^ 250 * 10 ^ 56 := by gcongr
          _ ≤ 1 := by norm_num
          _ ≤ s := spos
      · rw [div_le_iff₀ ppos]
        calc (s : ℚ) ≤ 10 ^ 16 := sbound
          _ ≤ 2 ^ 250 * (1 / 2) := by norm_num
          _ ≤ 2 ^ 250 * p.value := by gcongr
    obtain ⟨z, found, error, exact'⟩ := over?_spec hpos normal
    rw [dvalue] at error exact'
    have ten : (s * 10 ^ (-(n : ℤ)) : ℚ) = s / 10 ^ n := by rw [zpow_neg, zpow_natCast]; ring
    refine ⟨z, ?_, ?_, fun hn => ?_⟩
    · have before : (n - 1) / lastPower = 0 := Nat.div_eq_of_lt (by simp only [lastPower]; omega)
      have hn : n ≠ 0 := by omega
      simp [scaled?, digits, small, before, shrink?, power, found, hn]
    · rw [ten]
      exact error_over (by linarith) (by positivity) perror error
    · rw [ten, ← pexact hn]
      exact ⟨error, exact'⟩
  · obtain ⟨n, rfl⟩ := Int.eq_ofNat_of_zero_le nonneg
    simp only [Int.natAbs_natCast] at *
    have hpos : 0 < d.value * p.value := by rw [dvalue]; nlinarith
    have normal : Normal (d.value * p.value) := by
      rw [dvalue]
      refine normal_of_size ?_ ?_
      · calc (1 / 2 ^ 250 : ℚ) ≤ 1 * (1 / 2) := by norm_num
          _ ≤ s * p.value := by gcongr
      · calc (s * p.value : ℚ) ≤ 10 ^ 16 * 10 ^ 56 := by gcongr
          _ ≤ 2 ^ 250 := by norm_num
    obtain ⟨z, found, error, exact'⟩ := times?_spec hpos normal
    rw [dvalue] at error exact'
    refine ⟨z, by simp [scaled?, digits, small, power, found], ?_, fun hn => ?_⟩
    · rw [zpow_natCast]
      exact error_times (by linarith) (by positivity) perror error
    · rw [zpow_natCast, ← pexact hn]
      exact ⟨error, exact'⟩

end Dyadic

end PassTuner
