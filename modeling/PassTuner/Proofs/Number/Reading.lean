import PassTuner.Proofs.Number.Bits
import PassTuner.Proofs.Number.Spelling

/-!
# Numbers in messages are read back

The decimal that is written for a double lies in its interval, and what a numeral stands for is the
double nearest to it. Main statement: every double is read back from its written form.
-/

namespace PassTuner

open Numeral (ofDigits)

namespace Shortest

variable {f : BinaryFormat} {m : ℕ} {e : ℤ}

/-- A grid with more points to a decade than there are significands is fine enough. -/
theorem onGrid?_decade (tie : Tie) (hm : 0 < m) (canonical : f.Canonical m e)
    (small : ((4 * m).log2 + (e - 2)).natAbs < 1200) {n : ℕ} (digits : 2 * f.hiddenBit < 10 ^ n) :
    (interval f m e).onGrid? tie ((interval f m e).magnitude - (n + 1 : ℕ)) ≠ none := by
  obtain ⟨decade, _⟩ := Interval.magnitude_spec (i := interval f m e) (by simp [interval, hm]) small
  rw [point_middle] at decade
  have unit : (0 : ℚ) < 2 ^ e := zpow_pos two_pos _
  have many : (2 : ℚ) * f.hiddenBit < 10 ^ n := by exact_mod_cast digits
  have lead : (1 : ℚ) ≤ f.hiddenBit := by exact_mod_cast f.hiddenBit_pos
  obtain ⟨step, hstep⟩ : ∃ step : ℚ, step =
    10 ^ ((interval f m e).magnitude - (n + 1 : ℕ)) := ⟨_, rfl⟩
  have split : (10 : ℚ) ^ ((interval f m e).magnitude - 1) = 10 ^ n * step := by
    rw [hstep, ← zpow_natCast, ← zpow_add₀ (by norm_num)]
    congr 1
    push_cast
    ring
  have grid : 0 < step := hstep ▸ zpow_pos (by norm_num) _
  have one : (1 : ℚ) ≤ 10 ^ n := one_le_pow₀ (by norm_num)
  rw [split] at decade
  have coarse : (m : ℚ) ≤ 2 * reach f m e * (2 * f.hiddenBit) := by
    have bound : (m : ℚ) ≤ 2 * f.hiddenBit := by exact_mod_cast canonical.bound.le
    rw [reach]
    split_ifs with narrow
    · rw [narrow.1]
      linarith
    · linarith
  refine onGrid?_fine tie hm ?_ ?_
  · rw [← hstep]
    nlinarith
  · rw [← hstep]
    refine lt_of_mul_lt_mul_left ?_ (by linarith : (0 : ℚ) ≤ 2 * f.hiddenBit)
    calc 2 * f.hiddenBit * step < 10 ^ n * step := by gcongr
      _ ≤ m * 2 ^ e := decade
      _ ≤ 2 * reach f m e * (2 * f.hiddenBit) * 2 ^ e := by gcongr
      _ = 2 * f.hiddenBit * (2 * reach f m e * 2 ^ e) := by ring

/-- What lies in the interval of a double is nearest to it, as a decimal of any length that is in
use. -/
theorem nearestDecimal_of_contains (hm : 0 < m) (canonical : BinaryFormat.double.Canonical m e)
    (finite : BinaryFormat.double.encode m e ≤ BinaryFormat.double.infinityBits) {digits : ℕ}
    {exponent : ℤ} (pos : 0 < digits) (length : digits.log2 < 1025) (size : exponent.natAbs ≤ 400)
    (h : (interval .double m e).Contains (digits * 10 ^ exponent)) :
    BinaryFormat.double.nearestDecimal digits exponent = BinaryFormat.double.encode m e := by
  have bound : (Nat.pow 2 BinaryFormat.double.exponentBits : ℤ) = 2048 := by decide
  rw [zpow_toNat] at h
  rw [BinaryFormat.nearestDecimal, if_neg pos.ne']
  simp only [bound]
  rw [if_neg (by omega), if_neg (by omega)]
  split_ifs with nonneg
  · refine nearestRatio_of_contains hm canonical finite
      (Nat.mul_pos pos (Nat.pow_pos (by norm_num)))
      one_pos ?_
    rw [Int.toNat_of_nonpos (by omega : -exponent ≤ 0)] at h
    simpa using h
  · refine nearestRatio_of_contains hm canonical finite pos (Nat.pow_pos (by norm_num)) ?_
    rw [Int.toNat_of_nonpos (by omega : exponent ≤ 0)] at h
    simpa [div_eq_mul_inv] using h

/-- The written decimal of a double lies in its interval. -/
theorem double_shortest (tie : Tie) (hm : 0 < m) (canonical : BinaryFormat.double.Canonical m e)
    (finite : BinaryFormat.double.encode m e < BinaryFormat.double.infinityBits) :
    ∃ point k, Found .double m e (BinaryFormat.double.shortest tie m e) point k ∧
      point ≤ 10 ^ 17 := by
  have bound := canonical.bound
  have least := canonical.least
  simp only [BinaryFormat.encode, BinaryFormat.minExponent_double, BinaryFormat.hiddenBit_double,
    BinaryFormat.infinityBits_double] at bound least finite
  have log : (4 * m).log2 < 55 := (Nat.log2_lt (by omega)).2 (by omega)
  have small : ((4 * m).log2 + (e - 2)).natAbs < 1200 := by omega
  obtain ⟨point, k, found, count, _⟩ := shortest_found tie hm small (n := 16) (by norm_num)
    (onGrid?_decade tie hm canonical small (by simp))
  exact ⟨point, k, found, count⟩

/-- The numbers that are rounded to a finite double. -/
theorem contains_bounds (hm : 0 < m) (canonical : BinaryFormat.double.Canonical m e)
    (finite : BinaryFormat.double.encode m e < BinaryFormat.double.infinityBits) {q : ℚ}
    (h : (interval .double m e).Contains q) :
    (2 : ℚ) ^ (-1076 : ℤ) < q ∧ q < 2 ^ (1025 : ℤ) := by
  have bound := canonical.bound
  have least := canonical.least
  have leading := canonical.leading
  simp only [BinaryFormat.encode, BinaryFormat.minExponent_double, BinaryFormat.hiddenBit_double,
    BinaryFormat.infinityBits_double] at bound least leading finite
  obtain ⟨low, high⟩ := h.le
  rw [point_low _ hm] at low
  rw [point_high] at high
  have reach_bounds := reach_le .double m e
  have one : (1 : ℚ) ≤ m := by exact_mod_cast hm
  have width : (m : ℚ) + 1 ≤ 2 ^ 53 := by
    norm_num at bound
    exact_mod_cast bound
  constructor
  · calc (2 : ℚ) ^ (-1076 : ℤ) < 2 ^ (-1 : ℤ) * 2 ^ (-1074 : ℤ) := by
          rw [← zpow_add₀ two_ne_zero]
          exact zpow_lt_zpow_right₀ one_lt_two (by norm_num)
      _ ≤ 1 / 2 * 2 ^ e := by
          rw [zpow_neg_one, inv_eq_one_div]
          gcongr
          exact one_le_two
      _ ≤ (m - reach .double m e) * 2 ^ e := by gcongr; linarith
      _ ≤ q := low
  · calc q ≤ (m + 1 / 2) * 2 ^ e := high
      _ ≤ 2 ^ (53 : ℤ) * 2 ^ (971 : ℤ) := by
          gcongr
          · norm_num at width ⊢
            linarith
          · exact one_le_two
          · omega
      _ < 2 ^ (1025 : ℤ) := by
          rw [← zpow_add₀ two_ne_zero]
          exact zpow_lt_zpow_right₀ one_lt_two (by norm_num)

/-- Decimals with few digits that stand for doubles have exponents in use. -/
theorem exponent_in_use (hm : 0 < m) (canonical : BinaryFormat.double.Canonical m e)
    (finite : BinaryFormat.double.encode m e < BinaryFormat.double.infinityBits) {digits : ℕ}
    {exponent : ℤ} (pos : 0 < digits) (few : digits ≤ 10 ^ 17)
    (h : (interval .double m e).Contains (digits * 10 ^ exponent)) : exponent.natAbs ≤ 400 := by
  obtain ⟨low, high⟩ := contains_bounds hm canonical finite h
  have one : (1 : ℚ) ≤ digits := by exact_mod_cast pos
  have many : (digits : ℚ) ≤ 10 ^ 17 := by exact_mod_cast few
  have ten : (0 : ℚ) < 10 ^ exponent := zpow_pos (by norm_num) _
  -- Ten is more than the third power of two.
  have large (n : ℕ) : (2 : ℚ) ^ ((3 * n : ℕ) : ℤ) ≤ 10 ^ (n : ℤ) := by
    rw [zpow_natCast, zpow_natCast, pow_mul]
    gcongr
    norm_num
  have above : exponent < 400 := by
    refine (zpow_lt_zpow_iff_right₀ (by norm_num : (1 : ℚ) < 10)).1 ?_
    calc (10 : ℚ) ^ exponent ≤ digits * 10 ^ exponent := le_mul_of_one_le_left ten.le one
      _ < 2 ^ (1025 : ℤ) := high
      _ ≤ 2 ^ ((3 * 400 : ℕ) : ℤ) := zpow_le_zpow_right₀ one_le_two (by norm_num)
      _ ≤ 10 ^ (400 : ℤ) := large 400
  have below : -383 < exponent + 17 := by
    refine (zpow_lt_zpow_iff_right₀ (by norm_num : (1 : ℚ) < 10)).1 ?_
    calc (10 : ℚ) ^ (-383 : ℤ) = (10 ^ ((383 : ℕ) : ℤ))⁻¹ := by rw [← zpow_neg]; rfl
      _ ≤ (2 ^ ((3 * 383 : ℕ) : ℤ))⁻¹ := by gcongr; exact large 383
      _ ≤ 2 ^ (-1076 : ℤ) := by
          rw [← zpow_neg]
          exact zpow_le_zpow_right₀ one_le_two (by norm_num)
      _ < digits * 10 ^ exponent := low
      _ ≤ 10 ^ 17 * 10 ^ exponent := by gcongr
      _ = 10 ^ (exponent + 17) := by
          rw [zpow_add₀ (by norm_num), mul_comm]
          norm_num
  omega

end Shortest

/-! ## Reading -/

namespace Notation

theorem digit_not_word {c : Char} (h : c.isDigit) :
    c.toLower ≠ 'i' ∧ c.toLower ≠ 'n' ∧ c ≠ '-' ∧ c ≠ '+' := by
  have range : 48 ≤ c.val ∧ c.val ≤ 57 := by simpa [Char.isDigit] using h
  have low : c.toLower = c := by
    rw [Char.toLower, dif_neg]
    rintro ⟨upper, _⟩
    exact absurd (UInt32.le_trans upper range.2) (by decide)
  rw [low]
  refine ⟨?_, ?_, ?_, ?_⟩ <;>
  · rintro rfl
    exact absurd h (by decide)

theorem parseFloat?_text {s : Spelling} (h : s.Proper) (negative : Bool) :
    parseFloat? ((if negative then ['-'] else []) ++ s.text) = some (s.numeral negative).value := by
  obtain ⟨c, rest, hc⟩ := List.exists_cons_of_ne_nil h.nonempty
  obtain ⟨i, n, minus, plus⟩ := digit_not_word (h.whole c (by simp [hc]))
  have text : s.text = c :: (rest ++ (s.pointText ++ s.markText)) := by simp [Spelling.text, hc]
  have free := h.free? negative
  rw [text] at free ⊢
  cases negative <;> simp [parseFloat?, free, i, n, minus, plus]

/-- Every decimal is spelled positionally by its own digits, or as a whole number. -/
theorem spells_positional (d : Decimal) : ∃ s digits exponent, positionalForm false d = s.text ∧
    Spells s digits exponent ∧ (digits * 10 ^ exponent : ℚ) = d.value ∧
      (digits = d.digits ∧ exponent = d.exponent ∨ exponent = 0) := by
  rcases lt_or_ge d.exponent 0 with negative | nonneg
  · obtain ⟨s, text, spells⟩ := spells_fraction false negative
    exact ⟨s, _, _, text, spells, rfl, .inl ⟨rfl, rfl⟩⟩
  · obtain ⟨s, text, spells⟩ := spells_whole false nonneg
    refine ⟨s, _, _, text, spells, ?_, .inr (by simp)⟩
    rw [Decimal.value, zpow_toNat 10 d.exponent, Int.toNat_of_nonpos (by omega : -d.exponent ≤ 0)]
    simp

end Notation

/-- The double of a numeral that is spelled. -/
theorem Notation.Spells.value {s : Spelling} {digits : ℕ} {exponent : ℤ}
    (h : Notation.Spells s digits exponent) (negative : Bool) :
    (s.numeral negative).value = nearestFloat negative digits exponent := by
  rw [Numeral.value, Spelling.numeral, h.digits, h.exponent]

/-- A finite double has the bits of its parts. -/
theorem ofBits_of_decode {x : Float} {negative : Bool} {m : ℕ} {e : ℤ}
    (h : BinaryFormat.double.decode x.toBits.toNat = .finite negative m e) :
    Float.ofBits (UInt64.ofNat (if negative then
      BinaryFormat.double.signBit + BinaryFormat.double.encode m e
        else BinaryFormat.double.encode m e)) = x := by
  obtain ⟨_, _, bits, sign⟩ := BinaryFormat.of_decode_finite h
  have width : BinaryFormat.double.signBit = 2 ^ 63 := by decide
  have size := x.toBits.toNat_lt
  have whole : (if negative then BinaryFormat.double.signBit + BinaryFormat.double.encode m e
      else BinaryFormat.double.encode m e) = x.toBits.toNat := by
    rw [bits]
    rw [width] at sign ⊢
    cases negative with
    | true =>
      have := of_decide_eq_true sign.symm
      simp only [if_true]
      omega
    | false =>
      have := of_decide_eq_false sign.symm
      simp only [Bool.false_eq_true, if_false]
      omega
  rw [whole, UInt64.ofNat_toNat, Float.ofBits_toBits]

theorem parseFloat?_of_finite {x : Float} {negative : Bool} {m : ℕ} {e : ℤ}
    (h : BinaryFormat.double.decode x.toBits.toNat = .finite negative m e) :
    parseFloat? (floatText x).toList = some x := by
  obtain ⟨canonical, finite, _, _⟩ := BinaryFormat.of_decode_finite h
  obtain ⟨s, digits, exponent, text, spells, value, form⟩ :=
    Notation.spells_positional (BinaryFormat.double.shortest .up m e)
  have written : (floatText x).toList = (if negative then ['-'] else []) ++ s.text := by
    simp only [floatText, h, String.toList_ofList, Notation.render, ← text]
    rfl
  have nearest : BinaryFormat.double.nearestDecimal digits exponent =
      BinaryFormat.double.encode m e := by
    rcases Nat.eq_zero_or_pos m with rfl | hm
    · have hdigits : digits = 0 := by
        have zero : (digits * 10 ^ exponent : ℚ) = 0 := by
          rw [value]
          simp [BinaryFormat.shortest, Decimal.value]
        have ten : (10 : ℚ) ^ exponent ≠ 0 := zpow_ne_zero _ (by norm_num)
        exact_mod_cast (mul_eq_zero.1 zero).resolve_right ten
      have least : e = BinaryFormat.double.minExponent :=
        canonical.leading.resolve_left (by simp)
      simp [hdigits, BinaryFormat.nearestDecimal, BinaryFormat.encode, least]
    · obtain ⟨point, k, found, count⟩ := Shortest.double_shortest .up hm canonical finite
      have inside := found.inside
      rw [← found.value, ← value] at inside
      obtain ⟨low, high⟩ := Shortest.contains_bounds hm canonical finite inside
      have pos : 0 < digits := Nat.pos_of_ne_zero fun zero => by
        rw [zero, Nat.cast_zero, zero_mul] at low
        exact absurd low (zpow_pos two_pos _).not_gt
      refine Shortest.nearestDecimal_of_contains hm canonical finite.le pos ?_ ?_ inside
      · rcases form with ⟨rfl, _⟩ | rfl
        · have few := found.digits.trans count
          exact ((Nat.log2_lt pos.ne').2 (few.trans_lt (by norm_num : 10 ^ 17 < 2 ^ 57))).trans
            (by norm_num)
        · rw [zpow_zero, mul_one] at high
          rw [Nat.log2_lt pos.ne']
          exact_mod_cast high
      · rcases form with ⟨rfl, rfl⟩ | rfl
        · exact Shortest.exponent_in_use hm canonical finite pos (found.digits.trans count) inside
        · simp
  rw [written, Notation.parseFloat?_text spells.proper, spells.value, nearestFloat, nearest,
    ofBits_of_decode h]

/-- What a message shows of a double is read back as that double. -/
theorem parseFloat?_floatText (x : Float) : parseFloat? (floatText x).toList = some x := by
  cases h : BinaryFormat.double.decode x.toBits.toNat with
  | notANumber =>
    rw [floatText, h, Doubles.eq_notANumber h]
    rfl
  | infinite negative =>
    rw [floatText, h, Doubles.eq_infinity h]
    cases negative <;> rfl
  | finite negative m e => exact parseFloat?_of_finite h

/-! ## Natural numbers -/

namespace BinaryFormat

theorem canonical_nat {n : ℕ} (pos : 0 < n) (small : n < 2 ^ 53) :
    double.Canonical (n * 2 ^ (52 - n.log2)) ((n.log2 : ℤ) - 52) ∧
      double.encode (n * 2 ^ (52 - n.log2)) ((n.log2 : ℤ) - 52) < double.infinityBits := by
  have log : n.log2 < 53 := (Nat.log2_lt pos.ne').2 small
  have low := Nat.log2_self_le pos.ne'
  have high : n < 2 ^ (n.log2 + 1) := Nat.lt_log2_self
  have split (k : ℕ) (hk : n.log2 ≤ 52) : 2 ^ (n.log2 + k) * 2 ^ (52 - n.log2) = 2 ^ (52 + k) := by
    rw [← pow_add]
    congr 1
    omega
  have lead : 2 ^ 52 ≤ n * 2 ^ (52 - n.log2) := by
    rw [← split 0 (by omega)]
    exact Nat.mul_le_mul_right _ low
  have bound : n * 2 ^ (52 - n.log2) < 2 ^ 53 := by
    rw [← split 1 (by omega)]
    exact Nat.mul_lt_mul_of_pos_right high (Nat.two_pow_pos _)
  refine ⟨⟨by simp; omega, by simp; omega, .inl (by simp; omega)⟩, ?_⟩
  simp only [encode, minExponent_double, hiddenBit_double, infinityBits_double]
  omega

/-- A natural number of 53 bits is a double. -/
theorem decode_nearestDecimal_nat {n : ℕ} (pos : 0 < n) (small : n < 2 ^ 53) :
    double.decode (double.nearestDecimal n 0) =
      .finite false (n * 2 ^ (52 - n.log2)) ((n.log2 : ℤ) - 52) := by
  obtain ⟨canonical, finite⟩ := canonical_nat pos small
  have log : n.log2 < 53 := (Nat.log2_lt pos.ne').2 small
  have hm : 0 < n * 2 ^ (52 - n.log2) := Nat.mul_pos pos (Nat.two_pow_pos _)
  have value : ((n * 2 ^ (52 - n.log2) : ℕ) : ℚ) * 2 ^ ((n.log2 : ℤ) - 52) = n := by
    rw [show (n.log2 : ℤ) - 52 = -((52 - n.log2 : ℕ) : ℤ) by omega, zpow_neg, zpow_natCast]
    push_cast
    rw [mul_assoc, mul_inv_cancel₀ (by positivity), mul_one]
  have unit : (0 : ℚ) < 2 ^ ((n.log2 : ℤ) - 52) := zpow_pos two_pos _
  have reach := Shortest.reach_le double (n * 2 ^ (52 - n.log2)) ((n.log2 : ℤ) - 52)
  have inside : (Shortest.interval double (n * 2 ^ (52 - n.log2)) ((n.log2 : ℤ) - 52)).Contains
      (n * 10 ^ (0 : ℤ)) := by
    refine Shortest.Interval.contains_of_lt ?_ ?_
    · rw [Shortest.point_low _ hm, sub_mul, value, zpow_zero, mul_one]
      nlinarith
    · rw [Shortest.point_high, add_mul, value, zpow_zero, mul_one]
      linarith
  rw [Shortest.nearestDecimal_of_contains hm canonical finite.le pos (by omega) (by simp) inside,
    decode_encode canonical finite]

end BinaryFormat

end PassTuner
