import PassTuner.Proofs.Number.Rounding

/-!
# Packing finite numbers

A machine type packs sign, exponent and mantissa into the bits of its format. Each finite number of
the format has one pair of mantissa and exponent. Main statements: such a pair is unpacked again
from its bits, unless its exponent is too large, whatever finite number is unpacked is such a pair,
and what is unpacked is finite just where the bits are decoded as finite.
-/

namespace PassTuner.BinaryFormat

open Float.Model Float.Model.UnpackedFloat

/-- The format of a machine type. -/
def of (F : Format) : BinaryFormat := ⟨F.mantissaBits, F.exponentBits⟩

variable {F : Format} {m : ℕ} {e : ℤ}

theorem hiddenBit_of (F : Format) : (of F).hiddenBit = 2 ^ F.mantissaBitsWithoutImplicit := by
  simp [hiddenBit, of, Format.mantissaBits]

theorem minExponent_of (F : Format) : (of F).minExponent = F.minExponent := by
  simp [minExponent, of, Format.minExponent]

/-- The least exponent is one above the bias, counted from the last bit of the mantissa. -/
theorem minExponent_eq (F : Format) :
    F.minExponent = 1 - F.exponentBias - F.mantissaBitsWithoutImplicit := by
  have hpow : 1 ≤ 2 ^ (F.exponentBits - 1) := Nat.one_le_two_pow
  simp only [Format.minExponent, Format.exponentBias, Format.mantissaBits]
  push_cast [hpow]
  ring

theorem exponents_eq (F : Format) : 2 ^ F.exponentBits = 2 * F.exponentBias + 2 := by
  have hpow : 1 ≤ 2 ^ (F.exponentBits - 1) := Nat.one_le_two_pow
  have hbits : 2 ^ F.exponentBits = 2 * 2 ^ (F.exponentBits - 1) := by
    rw [← pow_succ', Nat.sub_add_cancel F.he]
  unfold Format.exponentBias
  omega

/-- The largest exponent of a finite number. -/
def maxExponent (F : Format) : ℤ := F.exponentBias - F.mantissaBitsWithoutImplicit

/-! ## Mantissas and their width -/

theorem Canonical.lt_two_pow (h : (of F).Canonical m e) : m < 2 ^ F.mantissaBits := by
  have hbound := h.bound
  rw [hiddenBit_of] at hbound
  rwa [Format.mantissaBits, pow_add, pow_one]

theorem Canonical.minExponent_le (h : (of F).Canonical m e) : F.minExponent ≤ e :=
  minExponent_of F ▸ h.least

theorem Canonical.log2_lt (h : (of F).Canonical m e) (pos : 0 < m) :
    m.log2 ≤ F.mantissaBitsWithoutImplicit := by
  have hlog := (Nat.log2_lt pos.ne').2 h.lt_two_pow
  unfold Format.mantissaBits at hlog
  omega

/-- A mantissa has all its bits just when its leading one is there. -/
theorem Canonical.full_iff (h : (of F).Canonical m e) (pos : 0 < m) :
    m.log2 + 1 = F.mantissaBits ↔ 2 ^ F.mantissaBitsWithoutImplicit ≤ m := by
  rw [← Nat.le_log2 pos.ne']
  have hlog := h.log2_lt pos
  unfold Format.mantissaBits
  omega

theorem toNat_append_one {p : ℕ} (b : BitVec p) : (1#1 ++ b).toNat = 2 ^ p + b.toNat := by
  rw [BitVec.toNat_append, ← Nat.shiftLeft_add_eq_or_of_lt b.isLt]
  simp [Nat.shiftLeft_eq]

theorem ones_iff {b : BitVec F.exponentBits} : b = -1#_ ↔ b.toNat = 2 * F.exponentBias + 1 := by
  rw [← BitVec.toNat_inj, BitVec.neg_one_eq_allOnes, BitVec.toNat_allOnes, exponents_eq]
  omega

/-! ## There and back -/

theorem unpack_packComponents (s : Sign) (b : BitVec F.exponentBits)
    (v : BitVec F.mantissaBitsWithoutImplicit) (hb : b ≠ 0#_)
    (hones : b.toNat < 2 * F.exponentBias + 1) :
    UnpackedFloat.unpack F (packComponents F s b v) =
      .finite s (1#1 ++ v).toNat (b.toNat - (F.exponentBias + F.mantissaBitsWithoutImplicit))
        (by rw [toNat_append_one]; positivity) := by
  have hb' : b ≠ -1#_ := fun h => hones.ne (ones_iff.1 h)
  simp only [UnpackedFloat.unpack, unpackExponent_packComponents, unpackMantissa_packComponents,
    unpackSign_packComponents, Sign.ofBitVec_toBitVec, if_neg hb, if_neg hb']

theorem unpack_packComponents_zero (s : Sign) (v : BitVec F.mantissaBitsWithoutImplicit)
    (hv : v ≠ 0#_) :
    UnpackedFloat.unpack F (packComponents F s 0#_ v) =
      .finite s v.toNat F.minExponent
        (Nat.pos_of_ne_zero fun h => hv (BitVec.toNat_inj.1 (h.trans (by simp)))) := by
  have hzero : (0#F.exponentBits : BitVec F.exponentBits) ≠ -1#_ := fun h => by
    simpa using ones_iff.1 h
  simp only [UnpackedFloat.unpack, unpackExponent_packComponents, unpackMantissa_packComponents,
    unpackSign_packComponents, Sign.ofBitVec_toBitVec, if_neg hzero, dif_neg hv, if_true,
    minExponent_eq, UnpackedFloat.finite.injEq, true_and]
  simp
  ring

/-- A pair of the format is unpacked again from its bits. -/
theorem unpack_pack (s : Sign) (pos : 0 < m) (h : (of F).Canonical m e) (he : e ≤ maxExponent F) :
    UnpackedFloat.unpack F (UnpackedFloat.pack F (.finite s m e pos)) = .finite s m e pos := by
  have hmin := h.minExponent_le
  have hbits := exponents_eq F
  rw [minExponent_eq] at hmin
  unfold maxExponent at he
  simp only [UnpackedFloat.pack]
  rw [if_neg (by omega)]
  by_cases hlead : 2 ^ F.mantissaBitsWithoutImplicit ≤ m
  · have hwidth : m < 2 * 2 ^ F.mantissaBitsWithoutImplicit := hiddenBit_of F ▸ h.bound
    have hexponent : (BitVec.ofNat F.exponentBits
        (e + F.exponentBias + F.mantissaBitsWithoutImplicit).toNat).toNat =
        (e + F.exponentBias + F.mantissaBitsWithoutImplicit).toNat := by
      rw [BitVec.toNat_ofNat]
      exact Nat.mod_eq_of_lt (by omega)
    have hmantissa : (BitVec.ofNat F.mantissaBitsWithoutImplicit m).toNat =
        m - 2 ^ F.mantissaBitsWithoutImplicit := by
      rw [BitVec.toNat_ofNat, Nat.mod_eq_sub_mod hlead]
      exact Nat.mod_eq_of_lt (by omega)
    rw [if_pos ((h.full_iff pos).2 hlead), unpack_packComponents]
    · simp only [UnpackedFloat.finite.injEq, true_and, toNat_append_one, hexponent, hmantissa]
      omega
    · intro hzero
      have := congrArg BitVec.toNat hzero
      simp only [hexponent, BitVec.toNat_zero] at this
      omega
    · omega
  · have hmantissa : (BitVec.ofNat F.mantissaBitsWithoutImplicit m).toNat = m := by
      rw [BitVec.toNat_ofNat]
      exact Nat.mod_eq_of_lt (by omega)
    have hleast : e = F.minExponent := by
      rw [← minExponent_of]
      exact h.leading.resolve_left (hiddenBit_of F ▸ hlead)
    rw [if_neg (mt (h.full_iff pos).1 hlead), unpack_packComponents_zero]
    · simp only [hmantissa, hleast]
    · intro hzero
      have := congrArg BitVec.toNat hzero
      simp only [hmantissa, BitVec.toNat_zero] at this
      omega

/-- Whatever finite number is unpacked is a pair of the format. -/
theorem canonical_of_unpack (hF : 0 < F.exponentBias) {b : BitVec F.numBits} {s : Sign}
    {pos : 0 < m} (h : UnpackedFloat.unpack F b = .finite s m e pos) :
    (of F).Canonical m e ∧ e ≤ maxExponent F := by
  have hmantissa := (unpackMantissa b).isLt
  simp only [UnpackedFloat.unpack] at h
  unfold maxExponent
  split at h
  · split at h <;> cases h
  · rename_i hones
    have hlt : (unpackExponent b).toNat < 2 * F.exponentBias + 1 := by
      have hwidth := (unpackExponent b).isLt
      have hne := mt ones_iff.2 hones
      rw [exponents_eq] at hwidth
      omega
    split at h
    · rename_i hzero
      split at h
      · cases h
      · cases h
        simp only [hzero, BitVec.toNat_zero]
        refine ⟨⟨?_, ?_, .inr ?_⟩, by omega⟩
        · rw [hiddenBit_of]
          omega
        · rw [minExponent_of, minExponent_eq]
          omega
        · rw [minExponent_of, minExponent_eq]
          omega
    · rename_i hzero
      cases h
      have hpos : (unpackExponent b).toNat ≠ 0 := fun hz => hzero (BitVec.toNat_inj.1 hz)
      rw [toNat_append_one]
      refine ⟨⟨?_, ?_, .inl ?_⟩, by omega⟩
      · rw [hiddenBit_of]
        omega
      · rw [minExponent_of, minExponent_eq]
        omega
      · rw [hiddenBit_of]
        omega

/-! ## Bits of finite numbers -/

/-- Bits are decoded as finite just where their exponent field is not full. -/
theorem decode_finite_iff {f : BinaryFormat} {bits : ℕ} :
    (∃ negative m e, f.decode bits = .finite negative m e) ↔
      bits / f.hiddenBit % 2 ^ f.exponentBits ≠ 2 ^ f.exponentBits - 1 := by
  have width : 0 < 2 ^ f.exponentBits := Nat.two_pow_pos _
  have field : bits / f.hiddenBit % 2 ^ f.exponentBits = bits % f.signBit / f.hiddenBit := by
    rw [signBit, Nat.mul_comm, Nat.mod_mul_right_div_self]
    rfl
  have below : bits % f.signBit < 2 ^ f.exponentBits * f.hiddenBit :=
    Nat.mod_lt _ (Nat.mul_pos width f.hiddenBit_pos)
  have finite : (bits % f.signBit < f.infinityBits) ↔
      bits % f.signBit / f.hiddenBit ≠ 2 ^ f.exponentBits - 1 := by
    have quotient := (Nat.div_lt_iff_lt_mul f.hiddenBit_pos).2 below
    have full : f.infinityBits = (2 ^ f.exponentBits - 1) * f.hiddenBit := rfl
    rw [full, ← Nat.div_lt_iff_lt_mul f.hiddenBit_pos]
    omega
  rw [field, ← finite, decode]
  split_ifs with none infinite
  · exact ⟨by simp, fun h => absurd none h.not_gt⟩
  · exact ⟨by simp, fun h => absurd infinite h.ne⟩
  · refine ⟨fun _ => by omega, fun _ => ?_⟩
    dsimp only
    split_ifs <;> exact ⟨_, _, _, rfl⟩

theorem toNat_unpackExponent (b : BitVec F.numBits) :
    (unpackExponent b).toNat = b.toNat / (of F).hiddenBit % 2 ^ F.exponentBits := by
  simp only [unpackExponent, BitVec.toNat_cast, BitVec.extractLsb, BitVec.extractLsb'_toNat,
    Nat.shiftRight_eq_div_pow, hiddenBit_of]
  congr 2
  have := F.he
  omega

/-- What is unpacked is finite just where the bits are decoded as finite. -/
theorem isFinite_unpack_iff {b : BitVec F.numBits} : (UnpackedFloat.unpack F b).isFinite ↔
    ∃ negative m e, (of F).decode b.toNat = .finite negative m e := by
  have field : unpackExponent b = -1#_ ↔
      b.toNat / (of F).hiddenBit % 2 ^ F.exponentBits = 2 ^ F.exponentBits - 1 := by
    rw [ones_iff, toNat_unpackExponent, exponents_eq]
    omega
  rw [decode_finite_iff]
  change _ ↔ ¬ (_ = _)
  rw [show (of F).exponentBits = F.exponentBits from rfl, ← field, UnpackedFloat.unpack]
  split_ifs <;> simp_all [UnpackedFloat.isFinite]

end PassTuner.BinaryFormat
