import PassTuner.Proofs.Number.Doubles

/-!
# Shares of a whole number

A share is the product of a whole number and a double from zero to below one, and is cut off to a
whole number again. The largest double below one is half a unit of the last place away from it, so
that the exact product is further from the whole number than half a unit, or there is a number of
the format in between. Main statement: a share is what the exact product is rounded to, and is below
the whole number.
-/

namespace PassTuner

open Float.Model Float.Model.UnpackedFloat

namespace BinaryFormat

variable {f : BinaryFormat} {F : Format} {m n r : ℕ} {e log : ℤ} {q v x : ℚ} {u : UnpackedFloat}

/-- The unit of a rational that is between two numbers with the same exponent. -/
theorem Rounds.unit_eq (h : f.Rounds q log r) (hm : f.hiddenBit ≤ m) (hmin : f.minExponent ≤ e)
    (hlow : m * 2 ^ e < q) (hhigh : q < 2 * f.hiddenBit * 2 ^ e) : f.unit log = e := by
  have hsize (k : ℕ) (t : ℤ) : (2 ^ k * f.hiddenBit * 2 ^ t : ℚ) =
      2 ^ (t + (f.precision - 1 : ℕ) + k) := by
    rw [zpow_add₀ two_ne_zero, zpow_add₀ two_ne_zero, zpow_natCast, zpow_natCast, hiddenBit_eq]
    ring
  have hbelow : e + (f.precision - 1 : ℕ) + (0 : ℕ) < log + 1 := by
    rw [← zpow_lt_zpow_iff_right₀ (one_lt_two (α := ℚ)), ← hsize]
    refine lt_of_le_of_lt ?_ (hlow.trans h.high)
    have : (f.hiddenBit : ℚ) ≤ m := by exact_mod_cast hm
    rw [pow_zero, one_mul]
    gcongr
  have habove : log < e + (f.precision - 1 : ℕ) + (1 : ℕ) := by
    rw [← zpow_lt_zpow_iff_right₀ (one_lt_two (α := ℚ)), ← hsize, pow_one]
    exact h.low.trans_lt hhigh
  unfold unit
  omega

/-- A share of a number is rounded to less than the number. -/
theorem RoundsTo.lt_of_share (hc : f.Canonical m e) (hlead : f.hiddenBit ≤ m)
    (hmin : f.minExponent < e) (hx : x ≤ 1 - 1 / (2 * f.hiddenBit))
    (h : f.RoundsTo (m * 2 ^ e * x) v) : v < m * 2 ^ e := by
  have hone := f.hiddenBit_pos
  have hpos : (0 : ℚ) < f.hiddenBit := by exact_mod_cast hone
  have he : (0 : ℚ) < 2 ^ e := by positivity
  have hshare : m * 2 ^ e * x ≤ (m - m / (2 * f.hiddenBit)) * 2 ^ e := by
    calc (m * 2 ^ e * x : ℚ)
        ≤ m * 2 ^ e * (1 - 1 / (2 * f.hiddenBit)) := by gcongr
      _ = (m - m / (2 * f.hiddenBit)) * 2 ^ e := by ring
  rcases hlead.eq_or_lt with rfl | hlead
  · -- Below a power of two the units are half as large.
    have hbelow : f.Canonical (2 * f.hiddenBit - 1) (e - 1) :=
      ⟨by omega, by omega, .inl (by omega)⟩
    have hhalf : ((2 * f.hiddenBit - 1 : ℕ) * 2 ^ (e - 1) : ℚ) = (f.hiddenBit - 1 / 2) * 2 ^ e := by
      rw [zpow_sub_one₀ two_ne_zero, Nat.cast_sub (by omega)]
      push_cast
      ring
    have hle : v ≤ (f.hiddenBit - 1 / 2) * 2 ^ e := by
      rw [← hhalf]
      refine h.le hbelow (hshare.trans (le_of_eq ?_))
      rw [hhalf]
      congr 2
      field_simp
    linarith
  · have hcast : ((m - 1 : ℕ) : ℚ) = m - 1 := by rw [Nat.cast_sub (by omega), Nat.cast_one]
    have hwidth := hc.bound
    by_cases hle : m * 2 ^ e * x ≤ (m - 1 : ℕ) * 2 ^ e
    · have hbelow : f.Canonical (m - 1) e := ⟨by omega, hc.least, .inl (by omega)⟩
      have := h.le hbelow hle
      rw [hcast] at this
      linarith
    · rw [not_le] at hle
      rcases h with ⟨_, rfl⟩ | ⟨log, r, hr, rfl⟩
      · have : (0 : ℚ) < m := by exact_mod_cast hone.trans hlead
        positivity
      · have hunit : f.unit log = e := hr.unit_eq (by omega) hmin.le hle (hshare.trans_lt ?_)
        · have hhalf : (1 : ℚ) / 2 < m / (2 * f.hiddenBit) := by
            rw [div_lt_div_iff₀ two_pos (by positivity)]
            have : (f.hiddenBit : ℚ) < m := by exact_mod_cast hlead
            linarith
          have hnear := (abs_le.1 hr.nearest.le).1
          have hquot : m * 2 ^ e * x / 2 ^ f.unit log ≤ m - m / (2 * f.hiddenBit) := by
            rwa [hunit, div_le_iff₀ he]
          have hless : (r : ℚ) < m := by linarith
          rw [hunit]
          exact mul_lt_mul_of_pos_right hless he
        · have : (m : ℚ) ≤ 2 * f.hiddenBit := by exact_mod_cast hwidth.le
          have hless : (0 : ℚ) < m / (2 * f.hiddenBit) := by
            have : (0 : ℚ) < m := by exact_mod_cast hone.trans hlead
            positivity
          gcongr
          linarith

/-! ## Whole numbers -/

/-- A whole number that is not too wide is a number of the format. -/
theorem exists_canonical (hn : 0 < n) (hwidth : n < 2 * f.hiddenBit)
    (hmin : f.minExponent ≤ -(f.precision - 1 : ℕ)) :
    ∃ m e, f.Canonical m e ∧ f.hiddenBit ≤ m ∧ -(f.precision - 1 : ℕ) ≤ e ∧
      (m * 2 ^ e : ℚ) = n := by
  have hhidden : f.hiddenBit = 2 ^ (f.precision - 1) := rfl
  have hlog : n.log2 ≤ f.precision - 1 := by
    have := (Nat.log2_lt hn.ne').2 (hwidth.trans_eq (by rw [hhidden, ← pow_succ']))
    omega
  obtain ⟨k, hk⟩ := Nat.exists_eq_add_of_le hlog
  have hlead : f.hiddenBit ≤ n * 2 ^ k := by
    rw [hhidden, hk, pow_add]
    exact Nat.mul_le_mul_right _ (Nat.log2_self_le hn.ne')
  refine ⟨n * 2 ^ k, -k, ⟨?_, by omega, .inl hlead⟩, hlead, by omega, ?_⟩
  · calc n * 2 ^ k < 2 ^ (n.log2 + 1) * 2 ^ k :=
          Nat.mul_lt_mul_of_pos_right Nat.lt_log2_self (by positivity)
      _ = 2 * f.hiddenBit := by rw [hhidden, hk]; ring
  · rw [zpow_neg, zpow_natCast]
    push_cast
    field_simp

/-- Zero and any whole number that is not too wide are rounded to themselves, and nothing is rounded
past them. -/
theorem RoundsTo.le_natCast (hwidth : n < 2 * f.hiddenBit)
    (hmin : f.minExponent ≤ -(f.precision - 1 : ℕ)) (h : f.RoundsTo q v) (hq : q ≤ n) : v ≤ n := by
  rcases Nat.eq_zero_or_pos n with rfl | hn
  · have hzero : f.Canonical 0 f.minExponent :=
      ⟨Nat.mul_pos two_pos f.hiddenBit_pos, le_rfl, .inr rfl⟩
    simpa using h.le hzero (by simpa using hq)
  · obtain ⟨m, e, hc, -, -, hvalue⟩ := exists_canonical hn hwidth hmin
    rw [← hvalue] at hq ⊢
    exact h.le hc hq

theorem RoundsTo.natCast_le (hwidth : n < 2 * f.hiddenBit)
    (hmin : f.minExponent ≤ -(f.precision - 1 : ℕ)) (h : f.RoundsTo q v) (hq : n ≤ q) : n ≤ v := by
  rcases Nat.eq_zero_or_pos n with rfl | hn
  · exact_mod_cast h.nonneg
  · obtain ⟨m, e, hc, -, -, hvalue⟩ := exists_canonical hn hwidth hmin
    rw [← hvalue] at hq ⊢
    exact h.ge hc hq

theorem ofNat_stands (F : Format) (n : ℕ) :
    ∃ v, (of F).RoundsTo n v ∧ Stands (of F) .positive v (UnpackedFloat.ofNat F n) := by
  unfold UnpackedFloat.ofNat UnpackedFloat.ofInt UnpackedFloat.normalize
  rcases Nat.eq_zero_or_pos n with rfl | hn
  · exact ⟨0, .inl ⟨Nat.cast_zero, rfl⟩, .zero⟩
  · rw [Int.compare_eq_gt.2 (by omega)]
    obtain ⟨v, hrounds, hstands⟩ := round_stands (F := F) .positive hn.ne' 0
    rw [zpow_zero, mul_one] at hrounds
    exact ⟨v, hrounds, hstands⟩

/-- The conversion to a whole number cuts off what is behind the point. -/
theorem Stands.toNat_toUInt64 {s : Sign} (h : Stands f s v u) (hs : s = .positive ∨ v = 0)
    (hv : v < 2 ^ 64) : u.toUInt64.toNat = ⌊v⌋₊ := by
  have hfloor : (UnpackedFloat.toInt 0 (UInt64.size - 1) u).toNat = ⌊v⌋₊ := by
    cases h with
    | zero => simp [UnpackedFloat.toInt]
    | @finite m e pos hc =>
      obtain rfl := hs.resolve_right (by positivity)
      have hmantissa (n : ℕ) : (ExtendedMantissa.ofMantissaAndAccuracy n .exact).mantissa = n := rfl
      simp only [UnpackedFloat.toInt, roundToInt, decreaseExponent, shiftToExponent, Sign.apply,
        mantissa_shift, hmantissa, Nat.shiftLeft_eq, Int.toNat_natCast, sub_zero]
      obtain ⟨k, rfl | rfl⟩ := e.eq_nat_or_neg
      · have hwhole : ((m * 2 ^ k : ℕ) : ℚ) = m * 2 ^ (k : ℤ) := by simp
        rw [← hwhole, Nat.floor_natCast]
        simp
      · have hquot : ((m : ℚ) / (2 ^ k : ℕ)) = m * 2 ^ (-k : ℤ) := by simp [div_eq_mul_inv]
        rw [← hquot, Nat.floor_div_eq_div]
        simp
  have hsmall : ⌊v⌋₊ < UInt64.size :=
    (Nat.floor_lt' (by decide)).2 (hv.trans_eq (by norm_num [UInt64.size]))
  rw [UnpackedFloat.toUInt64, hfloor, UInt64.toNat_ofNatClamp_of_lt hsmall]

end BinaryFormat

/-! ## Doubles -/

namespace Doubles

open BinaryFormat

variable {x y : Float} {n : ℕ}

/-- The rational that a finite number is. -/
def value (x : Float) : ℚ :=
  match x.toModel.unpack with
  | .finite s m e _ => s.apply (m : ℤ) * 2 ^ e
  | _ => 0

/-- A number from zero to below one is at least half a unit below one; with a sign it is zero. -/
theorem stands_of_unit (hlow : 0 ≤ x) (hhigh : x < 1) :
    ∃ s, Stands double s (value x) x.toModel.unpack ∧ (s = .positive ∨ value x = 0) ∧
      value x ≤ 1 - 1 / (2 * double.hiddenBit) := by
  obtain ⟨-, hnumber, hlow⟩ := le_iff_rank.1 hlow
  obtain ⟨-, -, hhigh⟩ := lt_iff_rank.1 hhigh
  change x.toModel.unpack.isNaN = false at hnumber
  change Ranks.rank (.zero .positive) ≤ Ranks.rank x.toModel.unpack at hlow
  change Ranks.rank x.toModel.unpack <
    Ranks.rank (.finite .positive (2 ^ 52) (-52) (by decide)) at hhigh
  unfold value
  cases hu : x.toModel.unpack with
  | notANumber => rw [hu] at hnumber; cases hnumber
  | zero s => exact ⟨s, .zero, .inr rfl, by norm_num⟩
  | infinity s =>
    rw [hu] at hlow hhigh
    cases s
    · exact absurd hlow (by decide)
    · exact absurd hhigh (not_lt.2 (Prod.Lex.toLex_lt_toLex.2 (.inl (by norm_num))).le)
  | finite s m e pos =>
    have hc : double.Canonical m e := (canonical_of_unpack (by decide) hu).1
    rw [hu] at hlow hhigh
    cases s with
    | negative =>
      exact absurd hlow (not_le.2 (Prod.Lex.toLex_lt_toLex.2 (.inl (by norm_num))))
    | positive =>
      refine ⟨.positive, by simpa [Sign.apply] using Stands.finite pos hc, .inl rfl, ?_⟩
      have hone : double.Canonical (2 ^ 52) (-52) := by
        refine ⟨?_, ?_, .inl ?_⟩ <;> simp
      have hless : (m * 2 ^ e : ℚ) < (2 ^ 52 : ℕ) * 2 ^ (-52 : ℤ) :=
        (Stands.finite pos hc).lt_of_rank (.finite (by decide) hone) hhigh
      have hle := hc.le_of_lt_two_zpow (t := -53) (hless.trans_eq (by norm_num))
      simp only [Sign.apply, Int.cast_natCast]
      refine hle.trans (le_of_eq ?_)
      norm_num

theorem minExponent_le_double : double.minExponent ≤ -(double.precision - 1 : ℕ) := by decide

theorem lt_hiddenBit_double (hn : n < 2 ^ 53) : n < 2 * double.hiddenBit := by simpa using hn

/-- What is below two to the 53 is unpacked again after it was computed. -/
theorem unpack_pack_of_lt {s : Sign} {v : ℚ} {u : UnpackedFloat} (h : Stands double s v u)
    (hv : v < 2 ^ 53) : UnpackedFloat.unpack .binary64 (UnpackedFloat.pack .binary64 u) = u := by
  refine Stands.unpack_pack (F := .binary64) (by decide) h (hv.trans_le ?_)
  rw [← zpow_natCast]
  exact zpow_le_zpow_right₀ one_le_two (by decide)

/-- Whole numbers below two to the 53 are doubles. -/
theorem ofNat_stands (hn : n < 2 ^ 53) :
    Stands double .positive n (Float.ofNat n).toModel.unpack := by
  have hwidth := lt_hiddenBit_double hn
  have hsize : (n : ℚ) < 2 ^ 53 := by exact_mod_cast hn
  have heq {v : ℚ} (h : double.RoundsTo n v) : v = n :=
    le_antisymm (h.le_natCast hwidth minExponent_le_double le_rfl)
      (h.natCast_le hwidth minExponent_le_double le_rfl)
  have hdef : Float.ofNat n = n.toUInt64.toFloat * Float.ofBits 0x3FF0000000000000 :=
    dif_pos ⟨hn, by decide⟩
  have hfactor : Stands double .positive n n.toUInt64.toFloat.toModel.unpack := by
    obtain ⟨v, hrounds, hv⟩ := BinaryFormat.ofNat_stands .binary64 n
    obtain rfl := heq hrounds
    have hnat : n.toUInt64.toNat = n := by
      rw [UInt64.toNat_ofNat']
      exact Nat.mod_eq_of_lt (hn.trans (by norm_num))
    have hunpack : n.toUInt64.toFloat.toModel.unpack = UnpackedFloat.ofNat .binary64 n := by
      have hdef : n.toUInt64.toFloat.toModel.unpack = UnpackedFloat.unpack .binary64
        (UnpackedFloat.pack .binary64 (UnpackedFloat.ofNat .binary64 n.toUInt64.toNat)) := rfl
      rw [hdef, hnat, unpack_pack_of_lt hv hsize]
    rw [hunpack]
    exact hv
  have hone : Stands double .positive 1 (Float.ofBits 0x3FF0000000000000).toModel.unpack := by
    have hc : double.Canonical (2 ^ 52) (-52) := by
      refine ⟨?_, ?_, .inl ?_⟩ <;> simp
    have hstands : Stands double .positive _ (.finite .positive (2 ^ 52) (-52) (by decide)) :=
      .finite _ hc
    norm_num at hstands
    exact hstands
  obtain ⟨v, hrounds, hv⟩ := mul_stands (F := .binary64) hfactor hone
  rw [mul_one] at hrounds
  obtain rfl := heq hrounds
  have hunpack : (n.toUInt64.toFloat * Float.ofBits 0x3FF0000000000000).toModel.unpack =
      UnpackedFloat.mul .binary64 n.toUInt64.toFloat.toModel.unpack
        (Float.ofBits 0x3FF0000000000000).toModel.unpack := unpack_pack_of_lt hv hsize
  rw [hdef, hunpack]
  exact hv

/-- A share of a whole number is what the exact product is rounded to, cut off behind the point, and
below the number. -/
theorem share_spec (hn : n < 2 ^ 53) (hlow : 0 ≤ x) (hhigh : x < 1) :
    ∃ v, double.RoundsTo (n * value x) v ∧ (Float.ofNat n * x).toUInt64.toNat = ⌊v⌋₊ ∧
      v ≤ n ∧ (0 < n → v < n) := by
  obtain ⟨s, hx, hs, hshare⟩ := stands_of_unit hlow hhigh
  obtain ⟨v, hrounds, hv⟩ := mul_stands (F := .binary64) (ofNat_stands hn) hx
  have hle : v ≤ n := by
    refine hrounds.le_natCast (lt_hiddenBit_double hn) minExponent_le_double ?_
    have hhalf : (0 : ℚ) ≤ 1 / (2 * double.hiddenBit) := by positivity
    exact mul_le_of_le_one_right n.cast_nonneg (by linarith)
  have hless : 0 < n → v < n := fun hpos => by
    obtain ⟨m, e, hc, hlead, he, hvalue⟩ :=
      exists_canonical hpos (lt_hiddenBit_double hn) minExponent_le_double
    have hmin : double.minExponent < e := by
      refine lt_of_lt_of_le ?_ he
      decide
    rw [← hvalue] at hrounds ⊢
    exact RoundsTo.lt_of_share hc hlead hmin hshare hrounds
  have hsmall : v < 2 ^ 53 := hle.trans_lt (by exact_mod_cast hn)
  have hunpack : (Float.ofNat n * x).toModel.unpack =
      UnpackedFloat.mul .binary64 (Float.ofNat n).toModel.unpack x.toModel.unpack :=
    unpack_pack_of_lt hv hsmall
  have hdef : (Float.ofNat n * x).toUInt64 = (Float.ofNat n * x).toModel.unpack.toUInt64 := rfl
  refine ⟨v, hrounds, ?_, hle, hless⟩
  rw [hdef, hunpack]
  refine hv.toNat_toUInt64 ?_ (hsmall.trans (by norm_num))
  rcases hs with rfl | hzero
  · exact .inl rfl
  · refine .inr (le_antisymm ?_ hrounds.nonneg)
    rw [hzero, mul_zero] at hrounds
    simpa using hrounds.le_natCast (n := 0) (by decide) minExponent_le_double (by simp)

end Doubles

end PassTuner
