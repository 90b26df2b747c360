import PassTuner.Proofs.Number.Reading
import PassTuner.Proofs.Number.Sides

/-!
# Singles are read back

A single is written as the shortest decimal between the ends of its interval, and a decimal is read
as a double near it, which need not be the nearest one, and rounded once more. What is read is still
on the same sides of both ends: a decimal of many digits is far from them, and one of few digits
cannot come near them without being one of them. Main statement: what is read for the spelled
decimal of a finite single is rounded to that single.
-/

namespace PassTuner

open BinaryFormat (single)

namespace Shortest

variable {m c : ℕ} {e k : ℤ} {read decimal : ℚ}

/-- The end below a number, in halves or quarters of its unit. -/
theorem exists_low (hm : 0 < m) (canonical : single.Canonical m e) :
    ∃ (parts : ℕ) (q : ℤ), 0 < parts ∧ parts ≤ 2 ^ 25 ∧ (parts % 4 = 3 → Even m) ∧
      (interval single m e).point (interval single m e).low = parts * 2 ^ q := by
  have bound := canonical.bound
  simp only [BinaryFormat.hiddenBit_single] at bound
  rw [point_low _ hm, reach]
  split_ifs with narrow
  · have lead : m = 2 ^ 23 := by rw [narrow.1, BinaryFormat.hiddenBit_single]
    refine ⟨4 * m - 1, e - 2, by omega, by omega, fun _ => by rw [lead]; decide, ?_⟩
    rw [quarter_unit, Nat.cast_sub (by omega)]
    push_cast
    ring
  · refine ⟨2 * m - 1, e - 1, by omega, by omega, fun odd => by rw [Nat.even_iff]; omega, ?_⟩
    rw [zpow_sub_one₀ two_ne_zero, Nat.cast_sub (by omega)]
    push_cast
    ring

/-- The end above a number, in halves of its unit. -/
theorem exists_high (canonical : single.Canonical m e) :
    ∃ (parts : ℕ) (q : ℤ), 0 < parts ∧ parts ≤ 2 ^ 25 ∧ (parts % 4 = 1 → Even m) ∧
      (interval single m e).point (interval single m e).high = parts * 2 ^ q := by
  have bound := canonical.bound
  simp only [BinaryFormat.hiddenBit_single] at bound
  refine ⟨2 * m + 1, e - 1, by omega, by omega, fun odd => by rw [Nat.even_iff]; omega, ?_⟩
  rw [point_high, zpow_sub_one₀ two_ne_zero]
  push_cast
  ring

/-- What is on the same sides of both ends is in the interval too. -/
theorem contains_of_kept {parts parts' : ℕ} (h : (interval single m e).Contains decimal)
    (low : Sides.Kept parts ((interval single m e).point (interval single m e).low) decimal read)
    (high : Sides.Kept parts' ((interval single m e).point (interval single m e).high) decimal read)
    (even : parts % 4 = 3 → Even m) (even' : parts' % 4 = 1 → Even m) :
    (interval single m e).Contains read := by
  by_cases hm : Even m
  · have closed : (interval single m e).closed = true := closed_iff.2 hm
    rw [Interval.Contains, if_pos closed] at h ⊢
    constructor
    · rcases h.1.lt_or_eq with lt | eq
      · exact (low.above lt).elim le_of_lt fun on => on.1.ge
      · exact (low.on eq.symm).ge
    · rcases h.2.lt_or_eq with lt | eq
      · exact (high.below lt).elim le_of_lt fun on => on.1.le
      · exact (high.on eq).le
  · obtain ⟨above, below⟩ := contains_of_odd h hm
    exact Interval.contains_of_lt ((low.above above).resolve_right fun on => hm (even on.2))
      ((high.below below).resolve_right fun on => hm (even' on.2))

/-- A decimal with many digits that is next to a number is away from the ends of its interval. -/
theorem far_of_many (hm : 0 < m) (canonical : single.Canonical m e) (many : 2 ^ 25 < c)
    (inside : (interval single m e).Contains (c * 10 ^ k))
    (near : |(c * 10 ^ k : ℚ) - m * 2 ^ e| ≤ 10 ^ k) :
    (c * 10 ^ k * Dyadic.readingError : ℚ) <
        c * 10 ^ k - (interval single m e).point (interval single m e).low ∧
      (c * 10 ^ k * Dyadic.readingError : ℚ) <
        (interval single m e).point (interval single m e).high - c * 10 ^ k := by
  have ten : (0 : ℚ) < 10 ^ k := zpow_pos (by norm_num) _
  have unit : (0 : ℚ) < 2 ^ e := zpow_pos two_pos _
  have bound : (m : ℚ) + 1 ≤ 2 ^ 24 := by
    have := canonical.bound
    rw [BinaryFormat.hiddenBit_single] at this
    exact_mod_cast this
  have many : (2 ^ 25 + 1 : ℚ) * 10 ^ k ≤ c * 10 ^ k := by
    gcongr
    exact_mod_cast many
  have size : (m * 2 ^ e : ℚ) ≤ (2 ^ 24 - 1) * 2 ^ e := by
    gcongr
    linarith
  obtain ⟨_, above⟩ := inside.le
  obtain ⟨near, near'⟩ := abs_le.1 near
  rw [point_low _ hm, sub_mul]
  rw [point_high, add_mul] at above ⊢
  rw [Dyadic.readingError, reach]
  split_ifs with narrow
  · -- A power of two, from whose size the grid follows more closely.
    have lead : (m : ℚ) = 2 ^ 23 := by
      rw [narrow.1, BinaryFormat.hiddenBit_single]
      norm_num
    rw [lead] at above near near' ⊢
    constructor <;> linarith
  · constructor <;> linarith

/-- The written decimal of a single lies in its interval. -/
theorem single_shortest (tie : Tie) (hm : 0 < m) (canonical : single.Canonical m e)
    (finite : single.encode m e < single.infinityBits) :
    ∃ point k, Found single m e (single.shortest tie m e) point k ∧ point ≤ 10 ^ 9 := by
  have bound := canonical.bound
  have least := canonical.least
  simp only [BinaryFormat.encode, BinaryFormat.minExponent_single, BinaryFormat.hiddenBit_single,
    BinaryFormat.infinityBits_single] at bound least finite
  have log : (4 * m).log2 < 26 := (Nat.log2_lt (by omega)).2 (by omega)
  have small : ((4 * m).log2 + (e - 2)).natAbs < 1200 := by omega
  obtain ⟨point, k, found, count, _⟩ := shortest_found tie hm small (n := 8) (by norm_num)
    (onGrid?_decade tie hm canonical small (by simp))
  exact ⟨point, k, found, count⟩

/-- Decimals of nine digits in the interval of a single have exponents for which reading is near. -/
theorem exponent_bounds (hm : 0 < m) (canonical : single.Canonical m e)
    (finite : single.encode m e < single.infinityBits) (pos : 0 < c) (few : c ≤ 10 ^ 9)
    (inside : (interval single m e).Contains (c * 10 ^ k)) : -55 ≤ k ∧ k ≤ 38 := by
  have bound := canonical.bound
  have least := canonical.least
  have leading := canonical.leading
  simp only [BinaryFormat.encode, BinaryFormat.minExponent_single, BinaryFormat.hiddenBit_single,
    BinaryFormat.infinityBits_single] at bound least leading finite
  obtain ⟨low, high⟩ := inside.le
  rw [point_low _ hm] at low
  rw [point_high] at high
  have reaches := reach_le single m e
  have one : (1 : ℚ) ≤ m := by exact_mod_cast hm
  have pos : (1 : ℚ) ≤ c := by exact_mod_cast pos
  have few : (c : ℚ) ≤ 10 ^ 9 := by exact_mod_cast few
  have width : (m : ℚ) + 1 ≤ 2 ^ 24 := by exact_mod_cast bound
  constructor
  · by_contra less
    have tiny : (10 : ℚ) ^ k ≤ 10 ^ (-56 : ℤ) := zpow_le_zpow_right₀ (by norm_num) (by omega)
    have unit : (2 : ℚ) ^ (-149 : ℤ) ≤ 2 ^ e := zpow_le_zpow_right₀ one_le_two least
    have : (1 / 2 * 2 ^ (-149 : ℤ) : ℚ) ≤ 10 ^ 9 * 10 ^ (-56 : ℤ) :=
      calc (1 / 2 * 2 ^ (-149 : ℤ) : ℚ) ≤ (m - reach single m e) * 2 ^ e := by
            gcongr <;> linarith
        _ ≤ c * 10 ^ k := low
        _ ≤ 10 ^ 9 * 10 ^ (-56 : ℤ) := by gcongr
    norm_num at this
  · by_contra more
    have huge : (10 : ℚ) ^ (39 : ℤ) ≤ 10 ^ k := zpow_le_zpow_right₀ (by norm_num) (by omega)
    have unit : (2 : ℚ) ^ e ≤ 2 ^ (104 : ℤ) := zpow_le_zpow_right₀ one_le_two (by omega)
    have : (1 * 10 ^ (39 : ℤ) : ℚ) ≤ 2 ^ 24 * 2 ^ (104 : ℤ) :=
      calc (1 * 10 ^ (39 : ℤ) : ℚ) ≤ c * 10 ^ k := by gcongr
        _ ≤ (m + 1 / 2) * 2 ^ e := high
        _ ≤ 2 ^ 24 * 2 ^ (104 : ℤ) := by
          gcongr
          linarith
    norm_num at this

/-- What is read for the written decimal of a single is in its interval. -/
theorem scaled?_shortest (tie : Tie) (hm : 0 < m) (canonical : single.Canonical m e)
    (finite : single.encode m e < single.infinityBits) {d : Decimal}
    (hd : single.shortest tie m e = d) :
    0 < d.digits ∧ d.digits ≤ 10 ^ 9 ∧ (interval single m e).Contains d.value ∧
      ∃ y, Dyadic.scaled? d.digits d.exponent = some y ∧
        (interval single m e).Contains y.value := by
  obtain ⟨point, k, found, count⟩ := single_shortest tie hm canonical finite
  rw [hd] at found
  have inside : (interval single m e).Contains (d.digits * 10 ^ d.exponent) := by
    have := found.inside
    rwa [← found.value] at this
  have near : |(d.digits * 10 ^ d.exponent : ℚ) - m * 2 ^ e| ≤ 10 ^ d.exponent := by
    have := found.near
    rw [← found.value] at this
    exact this.trans (zpow_le_zpow_right₀ (by norm_num) found.coarse)
  have few := found.digits.trans count
  have pos : 0 < d.digits := Nat.pos_of_ne_zero fun zero => by
    have low := inside.le.1
    rw [zero, Nat.cast_zero, zero_mul, point_low _ hm] at low
    have one : (1 : ℚ) ≤ m := by exact_mod_cast hm
    have reaches := reach_le single m e
    have unit : (0 : ℚ) < 2 ^ e := zpow_pos two_pos _
    nlinarith
  obtain ⟨least, most⟩ := exponent_bounds hm canonical finite pos few inside
  obtain ⟨y, hy, error, -⟩ := Dyadic.scaled?_spec pos (by omega : d.digits < 2 ^ 53)
    (by omega : d.exponent.natAbs ≤ 55)
  obtain ⟨parts, q, hparts, hparts', even, hlow⟩ := exists_low hm canonical
  obtain ⟨parts', q', hparts₁, hparts₁', even', hhigh⟩ := exists_high canonical
  refine ⟨pos, few, inside, y, hy, ?_⟩
  rcases Nat.lt_or_ge (2 ^ 25) d.digits with many | few
  · obtain ⟨above, below⟩ := far_of_many hm canonical many inside near
    exact contains_of_kept inside (Sides.kept_of_far error (above.trans_le (le_abs_self _)))
      (Sides.kept_of_far error
        (by rw [abs_sub_comm]; exact below.trans_le (le_abs_self _))) even even'
  · have low := Sides.kept_of_read pos few least most hparts hparts' q hy
    have high := Sides.kept_of_read pos few least most hparts₁ hparts₁' q' hy
    rw [← hlow] at low
    rw [← hhigh] at high
    exact contains_of_kept inside low high even even'

end Shortest

namespace Numeral

/-- The number a row of digits stands for behind another number. -/
def ofDigitsFrom (n : ℕ) (digits : List Char) : ℕ :=
  digits.foldl (fun n c => 10 * n + digitValue c) n

theorem le_ofDigitsFrom (n : ℕ) (digits : List Char) : n ≤ ofDigitsFrom n digits := by
  induction digits generalizing n with
  | nil => exact le_rfl
  | cons c digits ih => exact (by omega : n ≤ 10 * n + digitValue c).trans (ih _)

/-- Digits of a number that 64 bits hold are all gathered. -/
theorem gather_eq {n : ℕ} {digits : List Char} (small : ofDigitsFrom n digits < 2 ^ 64) :
    gather n digits = (ofDigitsFrom n digits, 0) := by
  induction digits generalizing n with
  | nil => rfl
  | cons c digits ih =>
    have next : 10 * n + digitValue c < Nat.pow 2 64 :=
      (le_ofDigitsFrom (10 * n + digitValue c) digits).trans_lt small
    rw [gather, if_pos next]
    exact ih small

end Numeral

namespace Notation

theorem Spells.scaled? {s : Spelling} {digits : ℕ} {exponent : ℤ} (h : Spells s digits exponent)
    (small : digits < 2 ^ 64) (negative : Bool) :
    (s.numeral negative).scaled? = Dyadic.scaled? digits exponent := by
  have all : Numeral.ofDigitsFrom (Numeral.ofDigitsFrom 0 s.whole) s.fraction = digits := by
    rw [← h.digits, Numeral.ofDigits, List.foldl_append]
    rfl
  have whole : Numeral.gather 0 s.whole = (Numeral.ofDigitsFrom 0 s.whole, 0) :=
    Numeral.gather_eq ((Numeral.le_ofDigitsFrom _ _).trans_lt (all ▸ small))
  have fraction : Numeral.gather (Numeral.ofDigitsFrom 0 s.whole) s.fraction = (digits, 0) := by
    rw [Numeral.gather_eq (all ▸ small), all]
  have exponent := h.exponent
  simp only [Numeral.scaled?, Spelling.numeral, whole, fraction, ← exponent]
  simp

theorem lt_ten_pow_length (n : ℕ) : n < 10 ^ (digitsOf n).length := by
  rw [digitsOf, Nat.toList_repr]
  exact (Nat.length_toDigits_le_iff (by norm_num)
    (List.length_pos_iff.2 Nat.toDigits_ne_nil)).1 le_rfl

/-- The digits and the exponent with which JSON spells a decimal: its own, or those with a zero
behind the point where it is a whole number, which is not a long one then. -/
inductive SpelledAs (d : Decimal) : ℕ → ℤ → Prop where
  | own : SpelledAs d d.digits d.exponent
  | zero : d.digits = 0 → SpelledAs d 0 (-1)
  | whole : 0 ≤ d.exponent → d.digits * 10 ^ (d.exponent.toNat + 1) < 10 ^ 14 →
    SpelledAs d (d.digits * 10 ^ (d.exponent.toNat + 1)) (-1)

theorem spells_jsonSingle (d : Decimal) : ∃ s digits exponent,
    (if jsonSingle.isPositional d then positionalForm true d else exponentForm d) = s.text ∧
      Spells s digits exponent ∧ SpelledAs d digits exponent := by
  split_ifs with positional
  · rcases lt_or_ge d.exponent 0 with fraction | whole
    · obtain ⟨s, text, spells⟩ := spells_fraction true fraction
      exact ⟨s, _, _, text, spells, .own⟩
    · obtain ⟨s, text, spells⟩ := spells_whole true whole
      simp only [isPositional, jsonSingle, Bool.or_eq_true, beq_iff_eq, Bool.and_eq_true,
        decide_eq_true_eq] at positional
      rcases positional with none | ⟨-, short⟩
      · rw [none, zero_mul] at spells
        exact ⟨s, _, _, text, spells, .zero none⟩
      · refine ⟨s, _, _, text, spells, .whole whole ?_⟩
        have pos := digitsOf_length_pos d.digits
        calc d.digits * 10 ^ (d.exponent.toNat + 1)
            < 10 ^ (digitsOf d.digits).length * 10 ^ (d.exponent.toNat + 1) :=
              Nat.mul_lt_mul_of_pos_right (lt_ten_pow_length _) (Nat.pow_pos (by norm_num))
          _ = 10 ^ ((digitsOf d.digits).length + (d.exponent.toNat + 1)) := (pow_add _ _ _).symm
          _ ≤ 10 ^ 14 := Nat.pow_le_pow_right (by norm_num) (by omega)
  · obtain ⟨s, text, spells⟩ := spells_exponentForm d
    exact ⟨s, _, _, text, spells, .own⟩

end Notation

namespace Dyadic

variable {m : ℕ} {e : ℤ}

theorem num_pos {y : Dyadic} (h : 0 < y.value) : 0 < y.num := by
  rw [← num_div_den] at h
  refine Nat.pos_of_ne_zero fun zero => ?_
  rw [zero, Nat.cast_zero, zero_div] at h
  exact h.false

/-- What is in the interval of a single is rounded to it. -/
theorem nearestRatio_of_value (hm : 0 < m) (canonical : single.Canonical m e)
    (finite : single.encode m e < single.infinityBits) {y : Dyadic}
    (inside : (Shortest.interval single m e).Contains y.value) :
    single.nearestRatio y.num y.den = single.encode m e := by
  have pos : 0 < y.value := by
    have low := inside.le.1
    rw [Shortest.point_low _ hm] at low
    have one : (1 : ℚ) ≤ m := by exact_mod_cast hm
    have reaches := Shortest.reach_le single m e
    have unit : (0 : ℚ) < 2 ^ e := zpow_pos two_pos _
    nlinarith
  rw [← y.num_div_den] at inside
  exact Shortest.nearestRatio_of_contains hm canonical finite.le (num_pos pos) y.den_pos inside

/-- What is read for the spelled decimal of a single is rounded to it. -/
theorem scaled?_spelled (canonical : single.Canonical m e)
    (finite : single.encode m e < single.infinityBits) {d : Decimal}
    (hd : single.shortest .toEven m e = d) {digits : ℕ} {exponent : ℤ}
    (spelled : Notation.SpelledAs d digits exponent) : digits < 2 ^ 64 ∧
      ∃ y, scaled? digits exponent = some y ∧
        single.nearestRatio y.num y.den = single.encode m e := by
  rcases Nat.eq_zero_or_pos m with rfl | hm
  · obtain rfl : d = ⟨0, 0⟩ := hd.symm
    have none : single.encode 0 e = 0 := by
      have least : e = single.minExponent := canonical.leading.resolve_left (by simp)
      simp [BinaryFormat.encode, least]
    cases spelled with
    | own =>
      have own : scaled? 0 0 = some ⟨0, -1074⟩ := by decide +kernel
      exact ⟨by norm_num, _, own, by rw [none]; rfl⟩
    | zero => exact ⟨by norm_num, ⟨0, -1074⟩, by decide +kernel, by rw [none]; rfl⟩
    | whole => exact ⟨by norm_num, ⟨0, -1074⟩, by decide +kernel, by rw [none]; rfl⟩
  · obtain ⟨pos, few, inside, y, hy, contained⟩ :=
      Shortest.scaled?_shortest .toEven hm canonical finite hd
    cases spelled with
    | own => exact ⟨by omega, y, hy, nearestRatio_of_value hm canonical finite contained⟩
    | zero none => exact absurd none pos.ne'
    | whole nonneg small =>
      obtain ⟨n, hn⟩ := Int.eq_ofNat_of_zero_le nonneg
      rw [hn, Int.toNat_natCast] at small ⊢
      have value : ((d.digits * 10 ^ (n + 1) : ℕ) * 10 ^ (-1 : ℤ) : ℚ) = d.value := by
        rw [Decimal.value, hn, zpow_natCast, pow_succ]
        push_cast
        ring
      have held : Holds53 d.value := by
        refine ⟨d.digits * 10 ^ n, 0, ?_, ?_⟩
        · rw [pow_succ, ← mul_assoc] at small
          omega
        · rw [Decimal.value, hn]
          push_cast
          simp
      obtain ⟨y, hy, -, exact'⟩ := scaled?_spec (Nat.mul_pos pos (Nat.pow_pos (by norm_num)))
        (small.trans (by norm_num)) (by norm_num : (-1 : ℤ).natAbs ≤ 55)
      rw [value] at exact'
      have read : y.value = d.value := (exact' (by norm_num)).2 held
      exact ⟨small.trans (by norm_num), y, hy,
        nearestRatio_of_value hm canonical finite (read ▸ inside)⟩

end Dyadic

namespace BinaryFormat

/-- The bits of a finite number are those of its parts behind its sign. -/
theorem sign_add_encode {f : BinaryFormat} {bits m : ℕ} {e : ℤ} {negative : Bool}
    (h : f.decode bits = .finite negative m e) (size : bits < 2 * f.signBit) :
    (if negative then f.signBit else 0) + f.encode m e = bits := by
  obtain ⟨_, _, magnitude, sign⟩ := of_decode_finite h
  rw [magnitude]
  cases negative with
  | true =>
    have := of_decide_eq_true sign.symm
    rw [if_pos rfl, Nat.mod_eq_sub_mod this, Nat.mod_eq_of_lt (by omega)]
    omega
  | false =>
    have := of_decide_eq_false sign.symm
    rw [if_neg (by decide), Nat.mod_eq_of_lt (by omega), zero_add]

end BinaryFormat

end PassTuner
