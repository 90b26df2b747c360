import PassTuner.Number.Scaling
import Mathlib

/-!
# Rounding quotients

A quotient of naturals is rounded to a binary format in units of the last place, and which unit that
is follows from the size of the quotient. `Rounds` says what comes of it as a statement about
rationals. Main statements: every quotient is rounded so; the bits of a number are decoded to that
number; and a quotient that lies nearer to a number of the format than half way to its neighbours is
rounded to it.
-/

namespace PassTuner

/-- A power with an integer exponent as a quotient of powers with natural ones. -/
theorem zpow_toNat (b : ℚ) (e : ℤ) : b ^ e = b ^ e.toNat / b ^ (-e).toNat := by
  obtain ⟨n, rfl | rfl⟩ := e.eq_nat_or_neg
  · simp
  · simp [zpow_neg]

/-- A natural number nearest to a rational; of two that are, the even one. -/
def Nearest (q : ℚ) (r : ℕ) : Prop := |q - r| < 1 / 2 ∨ |q - r| = 1 / 2 ∧ Even r

theorem Nearest.le {q : ℚ} {r : ℕ} (h : Nearest q r) : |q - r| ≤ 1 / 2 := by
  rcases h with h | ⟨h, _⟩
  · exact h.le
  · exact h.le

theorem nearest_natCast (n : ℕ) : Nearest n n := .inl (by simp)

theorem Nearest.unique {q : ℚ} {r s : ℕ} (hr : Nearest q r) (hs : Nearest q s) : r = s := by
  -- Two numbers as near differ by one, and one of them is odd.
  have apart {r s : ℕ} (hr : Nearest q r) (hs : Nearest q s) : ¬r < s := by
    intro lt
    have hr' := abs_le.1 hr.le
    have hs' := abs_le.1 hs.le
    have next : s = r + 1 := by
      have : (s : ℚ) ≤ (r + 1 : ℕ) := by push_cast; linarith
      exact le_antisymm (by exact_mod_cast this) lt
    subst next
    push_cast at hs'
    rcases hr with hr | ⟨_, even⟩
    · linarith [(abs_lt.1 hr).2]
    · rcases hs with hs | ⟨_, even'⟩
      · push_cast at hs
        linarith [(abs_lt.1 hs).1]
      · exact Nat.even_add_one.1 even' even
  exact le_antisymm (not_lt.1 (apart hs hr)) (not_lt.1 (apart hr hs))

namespace BinaryFormat

theorem nearest_roundDiv (num : ℕ) {den : ℕ} (hden : 0 < den) :
    Nearest (num / den) (roundDiv num den) := by
  have pos : (0 : ℚ) < den := by exact_mod_cast hden
  have split : (num : ℚ) / den = (num / den : ℕ) + (num % den : ℕ) / (den : ℚ) := by
    have h : ((den * (num / den) + num % den : ℕ) : ℚ) = num := by rw [Nat.div_add_mod]
    push_cast at h
    field_simp
    linarith
  have part : ((num % den : ℕ) : ℚ) / den < 1 := by
    rw [div_lt_one pos]
    exact_mod_cast Nat.mod_lt num hden
  have part' : (0 : ℚ) ≤ (num % den : ℕ) / (den : ℚ) := by positivity
  simp only [roundDiv]
  split_ifs with below above
  · have half : ((num % den : ℕ) : ℚ) / den < 1 / 2 := by
      rw [div_lt_div_iff₀ pos two_pos]
      exact_mod_cast (by omega : num % den * 2 < 1 * den)
    refine .inl ?_
    rw [split, abs_lt]
    constructor <;> linarith
  · have half : 1 / 2 < ((num % den : ℕ) : ℚ) / den := by
      rw [div_lt_div_iff₀ two_pos pos]
      exact_mod_cast (by omega : 1 * den < num % den * 2)
    refine .inl ?_
    rw [split, abs_lt]
    push_cast
    constructor <;> linarith
  · have half : ((num % den : ℕ) : ℚ) / den = 1 / 2 := by
      rw [div_eq_div_iff pos.ne' two_ne_zero]
      exact_mod_cast (by omega : num % den * 2 = 1 * den)
    refine .inr ⟨?_, ?_⟩
    · rcases Nat.mod_two_eq_zero_or_one (num / den) with even | odd
      · rw [split, half, even]
        norm_num
      · rw [split, half, odd]
        push_cast
        norm_num
    · rw [Nat.even_iff]
      omega

/-! ## The size of a quotient -/

variable {num den : ℕ}

theorem pow_le_quotient (hden : 0 < den) (e : ℤ) :
    (if 0 ≤ e then den * Nat.pow 2 e.toNat ≤ num else den ≤ num * Nat.pow 2 (-e).toNat) ↔
      (2 : ℚ) ^ e ≤ num / den := by
  have pos : (0 : ℚ) < den := by exact_mod_cast hden
  rw [zpow_toNat, div_le_div_iff₀ (by positivity) pos]
  split_ifs with h
  · rw [Int.toNat_of_nonpos (by omega : -e ≤ 0)]
    simp only [pow_zero, mul_one]
    rw [mul_comm]
    exact_mod_cast Iff.rfl
  · rw [Int.toNat_of_nonpos (by omega : e ≤ 0)]
    simp only [pow_zero, one_mul]
    exact_mod_cast Iff.rfl

theorem ratioLog_spec (hnum : 0 < num) (hden : 0 < den) :
    (2 : ℚ) ^ ratioLog num den ≤ num / den ∧ (num / den : ℚ) < 2 ^ (ratioLog num den + 1) := by
  have pos : (0 : ℚ) < den := by exact_mod_cast hden
  have num_low : ((2 ^ num.log2 : ℕ) : ℚ) ≤ num := by exact_mod_cast Nat.log2_self_le hnum.ne'
  have num_high : (num : ℚ) < (2 ^ (num.log2 + 1) : ℕ) := by exact_mod_cast Nat.lt_log2_self
  have den_low : ((2 ^ den.log2 : ℕ) : ℚ) ≤ den := by exact_mod_cast Nat.log2_self_le hden.ne'
  have den_high : (den : ℚ) < (2 ^ (den.log2 + 1) : ℕ) := by exact_mod_cast Nat.lt_log2_self
  push_cast at num_low num_high den_low den_high
  simp only [ratioLog]
  have fits : _ ↔ (2 : ℚ) ^ ((num.log2 : ℤ) - den.log2) ≤ num / den := pow_le_quotient hden _
  by_cases h : (2 : ℚ) ^ ((num.log2 : ℤ) - den.log2) ≤ num / den
  · rw [if_pos (fits.2 h)]
    refine ⟨h, ?_⟩
    rw [div_lt_iff₀ pos]
    have size : (2 : ℚ) ^ (num.log2 + 1) = 2 ^ ((num.log2 : ℤ) - den.log2 + 1) * 2 ^ den.log2 := by
      rw [← zpow_natCast, ← zpow_natCast, ← zpow_add₀ two_ne_zero]
      congr 1
      push_cast
      ring
    calc (num : ℚ) < 2 ^ (num.log2 + 1) := num_high
      _ = 2 ^ ((num.log2 : ℤ) - den.log2 + 1) * 2 ^ den.log2 := size
      _ ≤ _ := by gcongr
  · rw [if_neg (mt fits.1 h), sub_add_cancel]
    refine ⟨?_, not_le.1 h⟩
    rw [le_div_iff₀ pos]
    have size : (2 : ℚ) ^ ((num.log2 : ℤ) - den.log2 - 1) * 2 ^ (den.log2 + 1) = 2 ^ num.log2 := by
      rw [← zpow_natCast, ← zpow_natCast, ← zpow_add₀ two_ne_zero]
      congr 1
      push_cast
      ring
    calc (2 : ℚ) ^ ((num.log2 : ℤ) - den.log2 - 1) * den
        ≤ 2 ^ ((num.log2 : ℤ) - den.log2 - 1) * 2 ^ (den.log2 + 1) := by gcongr
      _ = 2 ^ num.log2 := size
      _ ≤ num := num_low

/-! ## What a quotient is rounded to -/

variable (f : BinaryFormat)

/-- The exponent of the unit of the last place for numbers from `2 ^ log` to `2 ^ (log + 1)`. -/
def unit (log : ℤ) : ℤ := max (log - (f.precision - 1 : ℕ)) f.minExponent

/-- The bits of `m * 2 ^ e`, `e` being the exponent of its unit of the last place. They are those of
the next larger number when `m` has one bit too many. -/
def encode (m : ℕ) (e : ℤ) : ℕ := (e - f.minExponent).toNat * f.hiddenBit + m

/-- A rational lies between `2 ^ log` and `2 ^ (log + 1)`, and in units of the last place
`significand` is nearest to it. -/
structure Rounds (q : ℚ) (log : ℤ) (significand : ℕ) : Prop where
  low : (2 : ℚ) ^ log ≤ q
  high : q < 2 ^ (log + 1)
  nearest : Nearest (q / 2 ^ f.unit log) significand

theorem nearestRatio_rounds (hnum : 0 < num) (hden : 0 < den) :
    ∃ log r, f.Rounds (num / den) log r ∧
      f.nearestRatio num den = min (f.encode r (f.unit log)) f.infinityBits := by
  obtain ⟨low, high⟩ := ratioLog_spec hnum hden
  have scaled (u : ℤ) : Nearest ((num / den : ℚ) / 2 ^ u)
      (if 0 ≤ u then roundDiv num (den * Nat.pow 2 u.toNat)
        else roundDiv (num * Nat.pow 2 (-u).toNat) den) := by
    rw [zpow_toNat]
    split_ifs with h
    · have near := nearest_roundDiv num (Nat.mul_pos hden (Nat.two_pow_pos u.toNat))
      rw [Int.toNat_of_nonpos (by omega : -u ≤ 0)]
      simp only [Nat.cast_mul, Nat.cast_pow, Nat.cast_ofNat] at near
      rw [pow_zero, div_one, div_div]
      exact near
    · have near := nearest_roundDiv (num * 2 ^ (-u).toNat) hden
      rw [Int.toNat_of_nonpos (by omega : u ≤ 0)]
      simp only [Nat.cast_mul, Nat.cast_pow, Nat.cast_ofNat] at near
      rw [pow_zero, div_div_eq_mul_div, div_one, div_mul_eq_mul_div]
      exact near
  refine ⟨_, _, ⟨low, high, scaled _⟩, ?_⟩
  rw [nearestRatio, if_neg hnum.ne']
  rfl

theorem Rounds.pos {f : BinaryFormat} {q : ℚ} {log : ℤ} {r : ℕ} (h : f.Rounds q log r) : 0 < q :=
  lt_of_lt_of_le (zpow_pos two_pos _) h.low

/-! ## The two formats -/

@[simp] theorem minExponent_double : double.minExponent = -1074 := by decide

@[simp] theorem hiddenBit_double : double.hiddenBit = 2 ^ 52 := by norm_num [hiddenBit, double]

@[simp] theorem infinityBits_double : double.infinityBits = 2047 * 2 ^ 52 := by
  norm_num [infinityBits, hiddenBit, double]

@[simp] theorem minExponent_single : single.minExponent = -149 := by decide

@[simp] theorem hiddenBit_single : single.hiddenBit = 2 ^ 23 := by norm_num [hiddenBit, single]

@[simp] theorem infinityBits_single : single.infinityBits = 255 * 2 ^ 23 := by
  norm_num [infinityBits, hiddenBit, single]

/-! ## Numbers and their bits -/

/-- The parts of a finite number, each number having one pair of them. -/
structure Canonical (m : ℕ) (e : ℤ) : Prop where
  bound : m < 2 * f.hiddenBit
  least : f.minExponent ≤ e
  leading : f.hiddenBit ≤ m ∨ e = f.minExponent

theorem hiddenBit_pos : 0 < f.hiddenBit := Nat.two_pow_pos _

theorem infinityBits_lt : f.infinityBits < f.signBit :=
  Nat.mul_lt_mul_of_pos_right (Nat.sub_lt (Nat.two_pow_pos _) one_pos) f.hiddenBit_pos

variable {f} {m : ℕ} {e : ℤ}

theorem decode_encode (h : f.Canonical m e) (finite : f.encode m e < f.infinityBits) :
    f.decode (f.encode m e) = .finite false m e := by
  have small := finite.trans f.infinityBits_lt
  have pos := f.hiddenBit_pos
  have unsigned : decide (f.signBit ≤ f.encode m e) = false := by simp [small]
  simp only [decode, unsigned, Nat.mod_eq_of_lt small, finite.not_gt, finite.ne, if_false]
  obtain ⟨n, hn⟩ : ∃ n : ℕ, e = f.minExponent + n :=
    ⟨(e - f.minExponent).toNat, by have := h.least; omega⟩
  have count : (e - f.minExponent).toNat = n := by omega
  have hbound := h.bound
  rcases Nat.lt_or_ge m f.hiddenBit with low | lead
  · have hmin : e = f.minExponent := h.leading.resolve_left low.not_ge
    simp [encode, Nat.div_eq_of_lt low, Nat.mod_eq_of_lt low, hmin]
  · obtain ⟨k, rfl⟩ := Nat.exists_eq_add_of_le lead
    have hk : k < f.hiddenBit := by omega
    have shape : f.encode (f.hiddenBit + k) e = k + f.hiddenBit * (n + 1) := by
      rw [encode, count]
      ring
    rw [shape, Nat.add_mul_div_left _ _ pos, Nat.add_mul_mod_self_left, Nat.div_eq_of_lt hk,
      Nat.mod_eq_of_lt hk]
    simp [hn]

/-- What is known of bits that stand for a finite number. -/
theorem of_decode_finite {bits : ℕ} {negative : Bool}
    (h : f.decode bits = .finite negative m e) :
    f.Canonical m e ∧ f.encode m e < f.infinityBits ∧ f.encode m e = bits % f.signBit ∧
      negative = decide (f.signBit ≤ bits) := by
  have pos := f.hiddenBit_pos
  simp only [decode] at h
  generalize hmag : bits % f.signBit = magnitude at h ⊢
  have parts := Nat.div_add_mod magnitude f.hiddenBit
  have rest := Nat.mod_lt magnitude pos
  split_ifs at h with above inf zero
  all_goals
    injection h with hneg hm he
    subst hm he
  · have below : magnitude < f.hiddenBit := by
      rw [zero] at parts
      omega
    have value : f.encode (magnitude % f.hiddenBit) f.minExponent = magnitude := by
      simp [encode, Nat.mod_eq_of_lt below]
    exact ⟨⟨by omega, le_rfl, .inr rfl⟩, by omega, value, hneg.symm⟩
  · obtain ⟨k, hk⟩ := Nat.exists_eq_succ_of_ne_zero zero
    have value : f.encode (f.hiddenBit + magnitude % f.hiddenBit)
        (f.minExponent + (magnitude / f.hiddenBit - 1 : ℕ)) = magnitude := by
      rw [hk] at parts ⊢
      have count : (f.minExponent + ((k + 1 - 1 : ℕ) : ℤ) - f.minExponent).toNat = k := by omega
      rw [encode, count]
      linarith
    exact ⟨⟨by omega, by omega, .inl (by omega)⟩, by omega, value, hneg.symm⟩

end BinaryFormat

end PassTuner
