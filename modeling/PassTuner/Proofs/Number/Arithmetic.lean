import PassTuner.Proofs.Number.Order
import PassTuner.Proofs.Number.Packing

/-!
# Machine arithmetic on rationals

The operations of a machine type are done on mantissas with two more bits, which say where the exact
result lies between two neighbours. Here they are statements about rationals: the exact result is
rounded to a number of the format. Main statements: that is so of products and of differences that
are not below zero; and rounding does not go past a number of the format.
-/

namespace PassTuner

open Float.Model Float.Model.UnpackedFloat

variable {q q' v v' : ℚ} {r n m k : ℕ} {e : ℤ} {s s' : Sign}

theorem Nearest.le_natCast (h : Nearest q r) (hq : q ≤ n) : r ≤ n := by
  by_contra hlt
  have hnext : (n + 1 : ℚ) ≤ r := by exact_mod_cast not_le.1 hlt
  have := (abs_le.1 h.le).1
  linarith

theorem Nearest.natCast_le (h : Nearest q r) (hq : n ≤ q) : n ≤ r := by
  by_contra hlt
  have hnext : (r + 1 : ℚ) ≤ n := by exact_mod_cast not_le.1 hlt
  have := (abs_le.1 h.le).2
  linarith

/-! ## Extended mantissas -/

/-- What a mantissa and its two more bits say of a rational: it is the mantissa, below the middle to
the next one, in the middle, or above. -/
def Extends (em : ExtendedMantissa) (q : ℚ) : Prop :=
  match em.roundBit, em.stickyBit with
  | false, false => q = em.mantissa
  | false, true => em.mantissa < q ∧ q < em.mantissa + 1 / 2
  | true, false => q = em.mantissa + 1 / 2
  | true, true => em.mantissa + 1 / 2 < q ∧ q < em.mantissa + 1

theorem Extends.nearest {em : ExtendedMantissa} (h : Extends em q) :
    Nearest q em.roundedMantissa := by
  obtain ⟨m, round, sticky⟩ := em
  cases round <;> cases sticky <;> simp only [Extends] at h <;>
    simp only [ExtendedMantissa.roundedMantissa, ExtendedMantissa.accuracy,
      Accuracy.roundToNearestEven]
  · exact h ▸ nearest_natCast m
  · refine .inl ?_
    rw [abs_lt]
    constructor <;> linarith
  · refine .inr ⟨?_, Nat.even_iff.2 (by omega)⟩
    rcases Nat.mod_two_eq_zero_or_one m with heven | hodd
    · rw [h, heven]
      norm_num
    · rw [h, hodd]
      push_cast
      norm_num
  · refine .inl ?_
    rw [abs_lt]
    push_cast
    constructor <;> linarith

theorem Extends.shiftRightOne {em : ExtendedMantissa} (h : Extends em q) :
    Extends em.shiftRightOne (q / 2) := by
  obtain ⟨m, round, sticky⟩ := em
  have hm : ((m % 2 : ℕ) : ℚ) + 2 * (m / 2 : ℕ) = m := by exact_mod_cast Nat.mod_add_div m 2
  rcases Nat.mod_two_eq_zero_or_one m with hbit | hbit <;> cases round <;> cases sticky <;>
    simp [Extends, ExtendedMantissa.shiftRightOne, hbit] at h hm ⊢ <;>
    first
      | linarith
      | (constructor <;> linarith)

/-- Bits that are shifted out are not forgotten. -/
theorem Extends.shift {em : ExtendedMantissa} (h : Extends em q) (k : ℕ) :
    Extends (em >>> k) (q / 2 ^ k) := by
  induction k with
  | zero => simpa [HShiftRight.hShiftRight, Nat.repeat] using h
  | succ k ih =>
    have hnext := ih.shiftRightOne
    rw [div_div, ← pow_succ] at hnext
    exact hnext

theorem mantissa_shift (em : ExtendedMantissa) (k : ℕ) :
    (em >>> k).mantissa = em.mantissa / 2 ^ k := by
  induction k with
  | zero => simp [HShiftRight.hShiftRight, Nat.repeat]
  | succ k ih =>
    change (em >>> k).mantissa / 2 = _
    rw [ih, Nat.div_div_eq_div_mul, ← pow_succ]

namespace BinaryFormat

/-! ## Rounding rationals -/

section Rounding

variable {f : BinaryFormat} {log : ℤ}

/-- A rational that is not below zero is rounded to a number. -/
def RoundsTo (f : BinaryFormat) (q v : ℚ) : Prop :=
  q = 0 ∧ v = 0 ∨ ∃ log r, f.Rounds q log r ∧ v = r * 2 ^ f.unit log

theorem minExponent_le_unit (f : BinaryFormat) (log : ℤ) : f.minExponent ≤ f.unit log :=
  le_max_right _ _

theorem hiddenBit_eq (f : BinaryFormat) : (f.hiddenBit : ℚ) = 2 ^ (f.precision - 1) := by
  simp [hiddenBit]

theorem Canonical.lt_two_zpow (h : f.Canonical m e) :
    (m * 2 ^ e : ℚ) < 2 ^ (e + (f.precision - 1 : ℕ) + 1) := by
  have hm : (m : ℚ) < 2 * f.hiddenBit := by exact_mod_cast h.bound
  have hsize : (2 : ℚ) ^ (e + (f.precision - 1 : ℕ) + 1) = 2 * f.hiddenBit * 2 ^ e := by
    rw [zpow_add₀ two_ne_zero, zpow_add₀ two_ne_zero, zpow_natCast, zpow_one, hiddenBit_eq]
    ring
  rw [hsize]
  gcongr

/-- A number of the format is a multiple of any unit that is not above its own. -/
theorem mul_zpow_div (m : ℕ) {e t : ℤ} (h : t ≤ e) :
    (m * 2 ^ e / 2 ^ t : ℚ) = ((m * 2 ^ (e - t).toNat : ℕ) : ℚ) := by
  obtain ⟨k, rfl⟩ : ∃ k : ℕ, e = t + k := ⟨(e - t).toNat, by omega⟩
  have ht : (2 : ℚ) ^ t ≠ 0 := by positivity
  rw [show (t + k - t).toNat = k by omega, zpow_add₀ two_ne_zero, zpow_natCast]
  push_cast
  field_simp

/-- Rounding does not go past a number of the format that is not below. -/
theorem Rounds.le (h : f.Rounds q log r) (hc : f.Canonical m e) (hq : q ≤ m * 2 ^ e) :
    (r * 2 ^ f.unit log : ℚ) ≤ m * 2 ^ e := by
  have hsize : log < e + (f.precision - 1 : ℕ) + 1 :=
    (zpow_lt_zpow_iff_right₀ one_lt_two).1 (h.low.trans_lt (hq.trans_lt hc.lt_two_zpow))
  have hunit : f.unit log ≤ e := max_le (by omega) hc.least
  have hquot : q / 2 ^ f.unit log ≤ ((m * 2 ^ (e - f.unit log).toNat : ℕ) : ℚ) := by
    rw [← mul_zpow_div m hunit]
    gcongr
  have hr : (r : ℚ) ≤ m * 2 ^ e / 2 ^ f.unit log := by
    rw [mul_zpow_div m hunit]
    exact_mod_cast h.nearest.le_natCast hquot
  rwa [le_div_iff₀ (by positivity)] at hr

/-- Rounding does not go past a number of the format that is not above. -/
theorem Rounds.ge (h : f.Rounds q log r) (hc : f.Canonical m e) (hq : m * 2 ^ e ≤ q) :
    (m * 2 ^ e : ℚ) ≤ r * 2 ^ f.unit log := by
  rcases le_or_gt (f.unit log) e with hunit | hunit
  · have hquot : ((m * 2 ^ (e - f.unit log).toNat : ℕ) : ℚ) ≤ q / 2 ^ f.unit log := by
      rw [← mul_zpow_div m hunit]
      gcongr
    have hr : (m * 2 ^ e / 2 ^ f.unit log : ℚ) ≤ r := by
      rw [mul_zpow_div m hunit]
      exact_mod_cast h.nearest.natCast_le hquot
    rwa [div_le_iff₀ (by positivity)] at hr
  · have hleast := hc.least
    have hlog : f.unit log = log - (f.precision - 1 : ℕ) := by
      unfold unit at hunit ⊢
      omega
    have hquot : (f.hiddenBit : ℚ) ≤ q / 2 ^ f.unit log := by
      rw [le_div_iff₀ (by positivity), hiddenBit_eq, ← zpow_natCast, ← zpow_add₀ two_ne_zero, hlog]
      simpa using h.low
    have hr : (f.hiddenBit : ℚ) ≤ r := by exact_mod_cast h.nearest.natCast_le hquot
    calc (m * 2 ^ e : ℚ)
        ≤ 2 ^ (e + (f.precision - 1 : ℕ) + 1) := hc.lt_two_zpow.le
      _ ≤ 2 ^ (f.unit log + (f.precision - 1 : ℕ)) :=
          zpow_le_zpow_right₀ one_le_two (by omega)
      _ = f.hiddenBit * 2 ^ f.unit log := by
          rw [zpow_add₀ two_ne_zero, zpow_natCast, hiddenBit_eq, mul_comm]
      _ ≤ r * 2 ^ f.unit log := by gcongr

theorem RoundsTo.nonneg (h : f.RoundsTo q v) : 0 ≤ v := by
  rcases h with ⟨_, rfl⟩ | ⟨log, r, _, rfl⟩
  · exact le_rfl
  · positivity

theorem RoundsTo.le (h : f.RoundsTo q v) (hc : f.Canonical m e) (hq : q ≤ m * 2 ^ e) :
    v ≤ m * 2 ^ e := by
  rcases h with ⟨_, rfl⟩ | ⟨log, r, hrounds, rfl⟩
  · positivity
  · exact hrounds.le hc hq

theorem RoundsTo.ge (h : f.RoundsTo q v) (hc : f.Canonical m e) (hq : m * 2 ^ e ≤ q) :
    m * 2 ^ e ≤ v := by
  rcases h with ⟨rfl, rfl⟩ | ⟨log, r, hrounds, rfl⟩
  · exact hq
  · exact hrounds.ge hc hq

end Rounding

/-! ## Rounding mantissas -/

variable {F : Format} {u w : UnpackedFloat}

/-- An unpacked number has a sign, and without it is a number of the format. -/
inductive Stands (f : BinaryFormat) (s : Sign) : ℚ → UnpackedFloat → Prop
  | zero : Stands f s 0 (.zero s)
  | finite {m : ℕ} {e : ℤ} (pos : 0 < m) (h : f.Canonical m e) :
    Stands f s (m * 2 ^ e) (.finite s m e pos)

theorem targetExponent_eq (m : ℕ) (e : ℤ) :
    F.targetExponent (totalExponent m e) = (of F).unit (m.log2 + e) := by
  rw [Format.targetExponent, totalExponent, unit, minExponent_of]
  simp only [of, Format.mantissaBits]
  congr 1
  push_cast
  omega

theorem two_zpow_log2_le (hm : m ≠ 0) (e : ℤ) : (2 : ℚ) ^ (m.log2 + e) ≤ m * 2 ^ e := by
  have hlow : ((2 ^ m.log2 : ℕ) : ℚ) ≤ m := by exact_mod_cast Nat.log2_self_le hm
  rw [zpow_add₀ two_ne_zero, zpow_natCast]
  push_cast at hlow
  gcongr

theorem lt_two_zpow_log2 (m : ℕ) (e : ℤ) : (m * 2 ^ e : ℚ) < 2 ^ (m.log2 + e + 1) := by
  have hhigh : (m : ℚ) < (2 ^ (m.log2 + 1) : ℕ) := by exact_mod_cast Nat.lt_log2_self
  rw [add_right_comm, zpow_add₀ two_ne_zero, ← Nat.cast_one, ← Nat.cast_add, zpow_natCast]
  push_cast at hhigh
  gcongr

/-- What the first shift leaves is nearest to the exact number. -/
theorem rounds_shift (hm : m ≠ 0) (hk : (of F).unit (m.log2 + e) = e + k) :
    (of F).Rounds (m * 2 ^ e) (m.log2 + e)
      (ExtendedMantissa.ofMantissaAndAccuracy m .exact >>> k).roundedMantissa := by
  have hexact : Extends (ExtendedMantissa.ofMantissaAndAccuracy m .exact) m := rfl
  refine ⟨two_zpow_log2_le hm e, lt_two_zpow_log2 m e, ?_⟩
  have hquot : (m * 2 ^ e / 2 ^ (of F).unit (m.log2 + e) : ℚ) = m / 2 ^ k := by
    rw [hk, zpow_add₀ two_ne_zero, zpow_natCast]
    field_simp
  rw [hquot]
  exact (hexact.shift k).nearest

/-- The rounded mantissa has at most one bit too many, and its leading one unless its unit is the
least. -/
theorem Rounds.bounds {f : BinaryFormat} {log : ℤ} (h : f.Rounds q log r) :
    r ≤ 2 * f.hiddenBit ∧ (f.hiddenBit ≤ r ∨ f.unit log = f.minExponent) := by
  have hunit : log - (f.precision - 1 : ℕ) ≤ f.unit log := le_max_left _ _
  have hhigh : q / 2 ^ f.unit log ≤ ((2 * f.hiddenBit : ℕ) : ℚ) := by
    rw [div_le_iff₀ (by positivity)]
    refine h.high.le.trans ?_
    have hsize : ((2 * f.hiddenBit : ℕ) : ℚ) * 2 ^ f.unit log =
        2 ^ (f.unit log + (f.precision - 1 : ℕ) + 1) := by
      rw [zpow_add₀ two_ne_zero, zpow_add₀ two_ne_zero, zpow_natCast, zpow_one]
      push_cast
      rw [hiddenBit_eq]
      ring
    rw [hsize]
    exact zpow_le_zpow_right₀ one_le_two (by omega)
  refine ⟨h.nearest.le_natCast hhigh, ?_⟩
  by_cases hmin : f.unit log = f.minExponent
  · exact .inr hmin
  · have hlog : f.unit log = log - (f.precision - 1 : ℕ) := by
      unfold unit at hmin ⊢
      omega
    refine .inl (h.nearest.natCast_le ?_)
    rw [le_div_iff₀ (by positivity), hiddenBit_eq, ← zpow_natCast, ← zpow_add₀ two_ne_zero, hlog]
    simpa using h.low

/-- The second shift takes a carry back, and else does nothing. -/
theorem stands_carry (s : Sign) {t : ℤ} (hr : r ≤ 2 * (of F).hiddenBit)
    (hlead : (of F).hiddenBit ≤ r ∨ t = (of F).minExponent) (ht : (of F).minExponent ≤ t)
    (hk : (F.targetExponent (totalExponent r t) - t).toNat = k) :
    Stands (of F) s (r * 2 ^ t)
      (if h : r / 2 ^ k = 0 then .zero s
        else .finite s (r / 2 ^ k) (t + k) (Nat.pos_of_ne_zero h)) := by
  have hprecision : (of F).precision - 1 = F.mantissaBitsWithoutImplicit := by
    simp [of, Format.mantissaBits]
  have hhidden := hiddenBit_of F
  rw [targetExponent_eq, unit, hprecision] at hk
  rcases hr.eq_or_lt with rfl | hlt
  · have hwhole : 2 * (of F).hiddenBit = 2 ^ (F.mantissaBitsWithoutImplicit + 1) := by
      rw [hhidden, pow_succ']
    have hone : k = 1 := by
      rw [hwhole, Nat.log2_two_pow] at hk
      omega
    subst hone
    rw [pow_one, Nat.mul_div_cancel_left _ two_pos, dif_neg (of F).hiddenBit_pos.ne']
    have hvalue : ((2 * (of F).hiddenBit : ℕ) * 2 ^ t : ℚ) =
        (of F).hiddenBit * 2 ^ (t + (1 : ℕ)) := by
      rw [zpow_add₀ two_ne_zero, zpow_natCast]
      push_cast
      ring
    rw [hvalue]
    have := (of F).hiddenBit_pos
    exact .finite _ ⟨by omega, by omega, .inl le_rfl⟩
  · have hzero : k = 0 := by
      by_cases hr0 : r = 0
      · subst hr0
        simp at hk
        omega
      · have hlog : r.log2 < F.mantissaBitsWithoutImplicit + 1 := by
          refine (Nat.log2_lt hr0).2 ?_
          rwa [pow_succ', ← hhidden]
        omega
    subst hzero
    simp only [pow_zero, Nat.div_one, Nat.cast_zero, add_zero]
    split
    · rename_i hr0
      subst hr0
      simpa using Stands.zero
    · exact .finite _ ⟨hlt, ht, hlead⟩

/-- A mantissa that is not too short is rounded to a number of the format. -/
theorem roundWithAccuracy_stands (s : Sign) (hm : m ≠ 0) (he : e ≤ (of F).unit (m.log2 + e)) :
    ∃ v, (of F).RoundsTo (m * 2 ^ e) v ∧
      Stands (of F) s v (roundWithAccuracy F s m e .exact) := by
  obtain ⟨k, hk⟩ : ∃ k : ℕ, (of F).unit (m.log2 + e) = e + k :=
    ⟨((of F).unit (m.log2 + e) - e).toNat, by omega⟩
  have hrounds := rounds_shift hm hk
  obtain ⟨hbound, hlead⟩ := hrounds.bounds
  refine ⟨_, .inr ⟨_, _, hrounds, rfl⟩, ?_⟩
  have hshift : (F.targetExponent (totalExponent m e) - e).toNat = k := by
    rw [targetExponent_eq, hk]
    omega
  have hmin := (of F).minExponent_le_unit (m.log2 + e)
  rw [hk] at hlead hmin ⊢
  have hstands := stands_carry s hbound hlead hmin rfl
  simp only [roundWithAccuracy, shiftToTargetExponent, shiftToExponent, hshift, mantissa_shift]
  exact hstands

/-- A difference is shifted until it is not too short, and then rounded. -/
theorem round_stands (s : Sign) (hm : m ≠ 0) (e : ℤ) :
    ∃ v, (of F).RoundsTo (m * 2 ^ e) v ∧ Stands (of F) s v (UnpackedFloat.round F s m e) := by
  obtain ⟨k, hk⟩ : ∃ k : ℕ, (e - F.targetExponent (totalExponent m e)).toNat = k := ⟨_, rfl⟩
  have hlog : (m * 2 ^ k).log2 = m.log2 + k := by
    refine (Nat.log2_eq_iff (by positivity)).2 ⟨?_, ?_⟩
    · rw [pow_add]
      exact Nat.mul_le_mul_right _ (Nat.log2_self_le hm)
    · rw [show m.log2 + k + 1 = m.log2 + 1 + k by omega, pow_add]
      exact Nat.mul_lt_mul_of_pos_right Nat.lt_log2_self (by positivity)
  have hround : UnpackedFloat.round F s m e = roundWithAccuracy F s (m * 2 ^ k) (e - k) .exact := by
    simp only [UnpackedFloat.round, decreaseExponent, hk, Nat.shiftLeft_eq]
  have hvalue : ((m * 2 ^ k : ℕ) * 2 ^ (e - k) : ℚ) = m * 2 ^ e := by
    rw [zpow_sub₀ two_ne_zero, zpow_natCast]
    push_cast
    field_simp
  rw [hround, ← hvalue]
  rw [targetExponent_eq] at hk
  refine roundWithAccuracy_stands s (by positivity) ?_
  rw [hlog, Nat.cast_add, show (m.log2 + k + (e - k) : ℤ) = m.log2 + e by ring]
  omega

/-! ## The operations -/

theorem minExponent_nonpos (F : Format) : F.minExponent ≤ 0 := by
  have := F.hm
  rw [minExponent_eq]
  omega

/-- A number is not shorter than its unit allows, and a product is longer. -/
theorem Canonical.mul_le_unit {m' : ℕ} {e' : ℤ} (h : (of F).Canonical m e)
    (h' : (of F).Canonical m' e') (pos : 0 < m) (pos' : 0 < m') :
    e + e' ≤ (of F).unit ((m * m').log2 + (e + e')) := by
  have hprecision : (of F).precision - 1 = F.mantissaBitsWithoutImplicit := by
    simp [of, Format.mantissaBits]
  have hne : m * m' ≠ 0 := (Nat.mul_pos pos pos').ne'
  have hnonpos := minExponent_nonpos F
  have full {a b : ℕ} (ha : (of F).hiddenBit ≤ a) (hb : 0 < b) (hab : a * b = m * m') :
      F.mantissaBitsWithoutImplicit ≤ (m * m').log2 := by
    rw [Nat.le_log2 hne, ← hiddenBit_of, ← hab]
    exact ha.trans (Nat.le_mul_of_pos_right a hb)
  have hlong : F.mantissaBitsWithoutImplicit ≤ (m * m').log2 ∨ e + e' ≤ (of F).minExponent := by
    rcases h.leading with hlead | rfl
    · exact .inl (full hlead pos' rfl)
    · rcases h'.leading with hlead | rfl
      · exact .inl (full hlead pos (Nat.mul_comm _ _))
      · rw [minExponent_of]
        exact .inr (by omega)
  unfold unit
  omega

/-- The exact product is rounded. -/
theorem mul_stands (hu : Stands (of F) s q u) (hw : Stands (of F) s' q' w) :
    ∃ v, (of F).RoundsTo (q * q') v ∧ Stands (of F) (s * s') v (UnpackedFloat.mul F u w) := by
  cases hu with
  | zero =>
    cases hw with
    | zero => exact ⟨0, .inl ⟨by simp, rfl⟩, .zero⟩
    | finite pos' h' => exact ⟨0, .inl ⟨by simp, rfl⟩, .zero⟩
  | @finite m e pos h =>
    cases hw with
    | zero => exact ⟨0, .inl ⟨by simp, rfl⟩, .zero⟩
    | @finite m' e' pos' h' =>
      have hvalue : (m * 2 ^ e * (m' * 2 ^ e') : ℚ) = (m * m' : ℕ) * 2 ^ (e + e') := by
        rw [zpow_add₀ two_ne_zero]
        push_cast
        ring
      rw [hvalue]
      exact roundWithAccuracy_stands (s * s') (Nat.mul_pos pos pos').ne' (h.mul_le_unit h' pos pos')

/-- A number of the format is rounded to itself. -/
theorem Canonical.roundsTo (h : (of F).Canonical m e) :
    (of F).RoundsTo (m * 2 ^ e) (m * 2 ^ e) := by
  rcases Nat.eq_zero_or_pos m with rfl | pos
  · exact .inl (by simp)
  · have hunit : (of F).unit (m.log2 + e) = e := by
      have hlog := h.log2_lt pos
      have hleast := h.least
      have hprecision : (of F).precision - 1 = F.mantissaBitsWithoutImplicit := by
        simp [of, Format.mantissaBits]
      unfold unit
      rcases h.leading with hlead | hmin
      · rw [hiddenBit_of, ← Nat.le_log2 pos.ne'] at hlead
        omega
      · omega
    refine .inr ⟨m.log2 + e, m, ⟨two_zpow_log2_le pos.ne' e, lt_two_zpow_log2 m e, ?_⟩, ?_⟩
    · rw [hunit, mul_div_cancel_right₀ _ (by positivity)]
      exact nearest_natCast m
    · rw [hunit]

/-- A difference is taken of mantissas in the smaller of the two units. -/
theorem sub_finite (m m' : ℕ) (e e' : ℤ) (pos : 0 < m) (pos' : 0 < m') :
    UnpackedFloat.sub F (.finite .positive m e pos) (.finite .positive m' e' pos') =
      UnpackedFloat.normalize F ((m * 2 ^ (e - min e e').toNat : ℕ) -
        (m' * 2 ^ (e' - min e e').toNat : ℕ) : ℤ) (min e e') .positive := by
  simp only [UnpackedFloat.sub, decreaseExponent, Nat.shiftLeft_eq, Sign.apply]

/-- The exact difference is rounded, if it is not below zero. -/
theorem sub_stands (hu : Stands (of F) .positive q u) (hw : Stands (of F) .positive q' w)
    (hle : q' ≤ q) :
    ∃ v, (of F).RoundsTo (q - q') v ∧ Stands (of F) .positive v (UnpackedFloat.sub F u w) := by
  cases hu with
  | zero =>
    cases hw with
    | zero => exact ⟨0, .inl ⟨sub_self 0, rfl⟩, .zero⟩
    | @finite m' e' pos' h' =>
      have : (0 : ℚ) < m' * 2 ^ e' := by positivity
      exact absurd hle this.not_ge
  | @finite m e pos h =>
    cases hw with
    | zero =>
      rw [sub_zero]
      exact ⟨_, h.roundsTo, .finite pos h⟩
    | @finite m' e' pos' h' =>
      have hwhole := mul_zpow_div m (min_le_left e e')
      have hwhole' := mul_zpow_div m' (min_le_right e e')
      rw [sub_finite]
      generalize m * 2 ^ (e - min e e').toNat = n at hwhole ⊢
      generalize m' * 2 ^ (e' - min e e').toNat = n' at hwhole' ⊢
      generalize min e e' = d at *
      rw [div_eq_iff (by positivity)] at hwhole hwhole'
      rw [hwhole, hwhole'] at hle ⊢
      have hnat : n' ≤ n := by exact_mod_cast le_of_mul_le_mul_right hle (by positivity)
      rw [← sub_mul, ← Nat.cast_sub hnat, ← Nat.cast_sub hnat]
      unfold UnpackedFloat.normalize
      rcases Nat.eq_zero_or_pos (n - n') with hn | hn
      · rw [hn]
        exact ⟨0, .inl ⟨by simp, rfl⟩, .zero⟩
      · rw [Int.compare_eq_gt.2 (by omega)]
        exact round_stands .positive hn.ne' d

/-! ## Packing what was computed -/

/-- A number that is not too large is unpacked again. -/
theorem Stands.unpack_pack (hF : 0 < F.exponentBias) (h : Stands (of F) s v u)
    (hv : v < 2 ^ (maxExponent F + F.mantissaBits)) :
    UnpackedFloat.unpack F (UnpackedFloat.pack F u) = u := by
  cases h with
  | zero => exact unpack_packedZero
  | @finite m e pos h =>
    refine BinaryFormat.unpack_pack s pos h (not_lt.1 fun hlt => hv.not_ge ?_)
    have hlead : (of F).hiddenBit ≤ m := by
      refine h.leading.resolve_right ?_
      rw [minExponent_of, minExponent_eq]
      unfold maxExponent at hlt
      omega
    have hm : (2 ^ F.mantissaBitsWithoutImplicit : ℚ) ≤ m := by
      rw [hiddenBit_of] at hlead
      exact_mod_cast hlead
    calc (2 : ℚ) ^ (maxExponent F + F.mantissaBits)
        ≤ 2 ^ ((F.mantissaBitsWithoutImplicit : ℤ) + e) := by
          refine zpow_le_zpow_right₀ one_le_two ?_
          unfold Format.mantissaBits
          push_cast
          omega
      _ = 2 ^ F.mantissaBitsWithoutImplicit * 2 ^ e := by
          rw [zpow_add₀ two_ne_zero, zpow_natCast]
      _ ≤ m * 2 ^ e := by gcongr

/-! ## The order -/

/-- A larger exponent makes a larger number. -/
theorem Canonical.lt_of_exponent {f : BinaryFormat} {m' : ℕ} {e' : ℤ} (h : f.Canonical m e)
    (h' : f.Canonical m' e') (hlt : e < e') : (m * 2 ^ e : ℚ) < m' * 2 ^ e' := by
  have hlead : (f.hiddenBit : ℚ) ≤ m' := by
    have hleast := h.least
    exact_mod_cast h'.leading.resolve_right (by omega)
  calc (m * 2 ^ e : ℚ)
      < 2 ^ (e + (f.precision - 1 : ℕ) + 1) := h.lt_two_zpow
    _ ≤ 2 ^ (e' + (f.precision - 1 : ℕ)) := zpow_le_zpow_right₀ one_le_two (by omega)
    _ = f.hiddenBit * 2 ^ e' := by
        rw [zpow_add₀ two_ne_zero, zpow_natCast, hiddenBit_eq, mul_comm]
    _ ≤ m' * 2 ^ e' := by gcongr

theorem Stands.lt_of_rank {f : BinaryFormat} (hu : Stands f .positive q u)
    (hw : Stands f .positive q' w) (h : Ranks.rank u < Ranks.rank w) : q < q' := by
  cases hu with
  | zero =>
    cases hw with
    | zero => exact absurd h (lt_irrefl _)
    | finite pos' h' => positivity
  | @finite m e pos hc =>
    cases hw with
    | zero => exact absurd h (not_lt.2 (Prod.Lex.toLex_lt_toLex.2 (.inl (by norm_num))).le)
    | @finite m' e' pos' hc' =>
      simp only [Ranks.rank, Prod.Lex.toLex_lt_toLex, lt_irrefl, true_and, false_or] at h
      rcases h with hlt | ⟨rfl, hlt⟩
      · exact hc.lt_of_exponent hc' hlt
      · have : (m : ℚ) < m' := by exact_mod_cast hlt
        gcongr

theorem Stands.rank_eq {f : BinaryFormat} (hu : Stands f .positive q u)
    (hw : Stands f .positive q' w) (h : Ranks.rank u = Ranks.rank w) : q = q' := by
  cases hu with
  | zero =>
    cases hw with
    | zero => rfl
    | finite pos' h' => cases h
  | @finite m e pos hc =>
    cases hw with
    | zero => cases h
    | @finite m' e' pos' hc' =>
      simp only [Ranks.rank, EmbeddingLike.apply_eq_iff_eq, Prod.mk.injEq, Nat.cast_inj,
        true_and] at h
      rw [h.1, h.2]

/-- Numbers without a sign are in the order of their ranks. -/
theorem Stands.lt_iff {f : BinaryFormat} (hu : Stands f .positive q u)
    (hw : Stands f .positive q' w) : Ranks.rank u < Ranks.rank w ↔ q < q' := by
  refine ⟨hu.lt_of_rank hw, fun h => ?_⟩
  rcases lt_trichotomy (Ranks.rank u) (Ranks.rank w) with hlt | heq | hgt
  · exact hlt
  · exact absurd (hu.rank_eq hw heq) h.ne
  · exact absurd (hw.lt_of_rank hu hgt) h.asymm

/-- A number below a power of two is not above the last one before it. -/
theorem Canonical.le_of_lt_two_zpow {f : BinaryFormat} {t : ℤ} (h : f.Canonical m e)
    (hlt : (m * 2 ^ e : ℚ) < (2 * f.hiddenBit : ℕ) * 2 ^ t) :
    (m * 2 ^ e : ℚ) ≤ (2 * f.hiddenBit - 1 : ℕ) * 2 ^ t := by
  rcases le_or_gt e t with hle | hgt
  · have hm : (m : ℚ) ≤ (2 * f.hiddenBit - 1 : ℕ) := by exact_mod_cast Nat.le_sub_one_of_lt h.bound
    gcongr
    exact one_le_two
  · have ht : (0 : ℚ) < 2 ^ t := by positivity
    rw [← div_lt_iff₀ ht, mul_zpow_div m hgt.le, Nat.cast_lt] at hlt
    rw [← div_le_iff₀ ht, mul_zpow_div m hgt.le, Nat.cast_le]
    exact Nat.le_sub_one_of_lt hlt

end BinaryFormat

end PassTuner
