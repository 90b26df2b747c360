import PassTuner.Number.Literal
import PassTuner.Proofs.Number.Doubles
import PassTuner.Proofs.Number.Rounding

/-!
# Doubles and their bits

The bits of a double are decoded as the machine type unpacks them: into the same exponent field and
the same fraction. Main statements: bits that stand for something are the bits of the double that is
made of them, a finite double is decoded as finite, and there are three doubles that are not.
-/

namespace PassTuner.Doubles

open Float.Model Float.Model.UnpackedFloat

theorem toNat_unpackMantissa (b : BitVec Format.binary64.numBits) :
    (unpackMantissa b).toNat = b.toNat % 2 ^ 52 := by
  simp only [unpackMantissa, BitVec.toNat_cast, BitVec.extractLsb, BitVec.extractLsb'_toNat,
    Nat.shiftRight_eq_div_pow]
  simp

theorem exponent_eq_ones_iff (b : BitVec Format.binary64.numBits) :
    unpackExponent b = -1#_ ↔ b.toNat / 2 ^ 52 % 2 ^ 11 = 2047 := by
  rw [BinaryFormat.ones_iff, BinaryFormat.toNat_unpackExponent]
  rfl

@[simp] theorem signBit_double : BinaryFormat.double.signBit = 2 ^ 63 := by decide

/-- An exponent field that is full stands for an infinity or for no number. -/
theorem decode_of_ones {bits : ℕ} (h : bits / 2 ^ 52 % 2 ^ 11 = 2047) :
    BinaryFormat.double.decode bits = if bits % 2 ^ 52 = 0 then
      .infinite (decide (2 ^ 63 ≤ bits)) else .notANumber := by
  simp only [BinaryFormat.decode, BinaryFormat.infinityBits_double, signBit_double]
  split_ifs <;> first | rfl | omega

/-- Any other stands for a number. -/
theorem decode_of_not_ones {bits : ℕ} (h : bits / 2 ^ 52 % 2 ^ 11 ≠ 2047) :
    ∃ negative m e, BinaryFormat.double.decode bits = .finite negative m e :=
  BinaryFormat.decode_finite_iff.2 h

theorem toBits_ofBits {bits : ℕ} (size : bits < 2 ^ 64)
    (number : BinaryFormat.double.decode bits ≠ .notANumber) :
    (Float.ofBits (UInt64.ofNat bits)).toBits.toNat = bits := by
  have whole : (UInt64.ofNat bits).toBitVec.toNat = bits := by simp; omega
  have valid : Format.binary64.Valid (UInt64.ofNat bits).toBitVec := by
    refine ⟨fun exponent mantissa => absurd ?_ number⟩
    rw [exponent_eq_ones_iff, whole] at exponent
    rw [decode_of_ones exponent, if_neg]
    intro zero
    refine mantissa (BitVec.toNat_inj.1 ?_)
    rw [toNat_unpackMantissa, whole, zero]
    rfl
  change (UnpackedFloat.pack .binary64 (UnpackedFloat.unpack .binary64 _)).toNat = bits
  rw [pack_unpack_of_valid valid, whole]

/-! ## Doubles that are no numbers -/

theorem eq_of_toBits {x : Float} {bits : UInt64} (h : x.toBits = bits) : x = Float.ofBits bits := by
  rw [← h, Float.ofBits_toBits]

theorem ones_of_not_finite {bits : ℕ}
    (h : ∀ negative m e, BinaryFormat.double.decode bits ≠ .finite negative m e) :
    bits / 2 ^ 52 % 2 ^ 11 = 2047 := by
  by_contra ones
  obtain ⟨_, _, _, finite⟩ := decode_of_not_ones ones
  exact h _ _ _ finite

theorem eq_notANumber {x : Float} (h : BinaryFormat.double.decode x.toBits.toNat = .notANumber) :
    x = notANumber := by
  have ones : x.toBits.toNat / 2 ^ 52 % 2 ^ 11 = 2047 := ones_of_not_finite (by simp [h])
  rw [decode_of_ones ones] at h
  have exponent := (exponent_eq_ones_iff x.toModel.toBits.toBitVec).2 ones
  have mantissa : @unpackMantissa .binary64 x.toModel.toBits.toBitVec ≠ 0#_ := by
    intro zero
    have fraction := toNat_unpackMantissa x.toModel.toBits.toBitVec
    rw [zero] at fraction
    have empty : x.toBits.toNat % 2 ^ 52 = 0 := fraction.symm
    rw [if_pos empty] at h
    cases h
  exact eq_of_toBits (UInt64.toBitVec_inj.1 (x.toModel.valid.eq_packedNaN exponent mantissa))

theorem eq_infinity {x : Float} {negative : Bool}
    (h : BinaryFormat.double.decode x.toBits.toNat = .infinite negative) :
    x = if negative then -infinity else infinity := by
  have size := x.toBits.toNat_lt
  have ones : x.toBits.toNat / 2 ^ 52 % 2 ^ 11 = 2047 := ones_of_not_finite (by simp [h])
  rw [decode_of_ones ones] at h
  split_ifs at h with zero
  injection h with sign
  by_cases top : 2 ^ 63 ≤ x.toBits.toNat
  · rw [decide_eq_true top] at sign
    subst sign
    rw [if_pos rfl, show -infinity = Float.ofBits 0xFFF0000000000000 from rfl]
    refine eq_of_toBits (UInt64.toNat_inj.1 ?_)
    change _ = 0xFFF0000000000000
    omega
  · rw [decide_eq_false top] at sign
    subst sign
    rw [if_neg (by decide)]
    refine eq_of_toBits (UInt64.toNat_inj.1 ?_)
    change _ = 0x7FF0000000000000
    omega

end PassTuner.Doubles
