import PassTuner.Proofs.Number.Doubles
import PassTuner.Random.Draw

/-!
# Numbers that are not below zero

A product of numbers without a sign has none, and neither has a whole number. Packing keeps the
sign. Main statements: a number drawn from zero to below one is not below zero, and what is above
zero is not below its negative.
-/

namespace PassTuner.Doubles

open Float.Model Float.Model.UnpackedFloat

/-- The number is zero, none at all, or has no sign. -/
def Unsigned : UnpackedFloat → Prop
  | .infinity s => s = .positive
  | .finite s _ _ _ => s = .positive
  | _ => True

variable {u v : UnpackedFloat} {x y : Float}

theorem unsigned_roundWithAccuracy (m : Nat) (e : Int) (a : Accuracy) :
    Unsigned (roundWithAccuracy .binary64 .positive m e a) := by
  unfold roundWithAccuracy
  dsimp only
  split <;> trivial

theorem unsigned_mul (hu : Unsigned u) (hv : Unsigned v) :
    Unsigned (UnpackedFloat.mul .binary64 u v) := by
  cases u with
  | notANumber => trivial
  | zero s => cases v <;> trivial
  | infinity s =>
    cases hu
    cases v with
    | infinity s' => cases hv; rfl
    | finite s' => cases hv; rfl
    | _ => trivial
  | finite s m e =>
    cases hu
    cases v with
    | infinity s' => cases hv; rfl
    | finite s' => cases hv; exact unsigned_roundWithAccuracy _ _ _
    | _ => trivial

theorem unsigned_ofNat (n : Nat) : Unsigned (UnpackedFloat.ofNat .binary64 n) := by
  unfold UnpackedFloat.ofNat UnpackedFloat.ofInt UnpackedFloat.normalize
  cases h : compare (n : Int) 0 with
  | lt => exact absurd (Int.compare_eq_lt.1 h) (by omega)
  | eq => trivial
  | gt => exact unsigned_roundWithAccuracy _ _ _

theorem unsigned_unpack {b : BitVec Format.binary64.numBits} (h : unpackSign b = 0#1) :
    Unsigned (UnpackedFloat.unpack .binary64 b) := by
  unfold UnpackedFloat.unpack
  dsimp only
  rw [h]
  split
  · split <;> trivial
  · split
    · split <;> trivial
    · trivial

/-- Packing a number without a sign gives one. -/
theorem unsigned_pack (hu : Unsigned u) :
    Unsigned (UnpackedFloat.unpack .binary64 (UnpackedFloat.pack .binary64 u)) := by
  cases u with
  | notANumber => exact unsigned_unpack (unpackSign_packComponents _ _ _)
  | zero s => cases s <;> trivial
  | infinity s =>
    cases hu
    exact unsigned_unpack (unpackSign_packComponents _ _ _)
  | finite s m e =>
    cases hu
    unfold UnpackedFloat.pack
    dsimp only
    split
    · exact unsigned_unpack (unpackSign_packComponents _ _ _)
    · split <;> exact unsigned_unpack (unpackSign_packComponents _ _ _)

theorem unsigned_float_mul (hx : Unsigned x.toModel.unpack) (hy : Unsigned y.toModel.unpack) :
    Unsigned (x * y).toModel.unpack :=
  unsigned_pack (unsigned_mul hx hy)

theorem unsigned_ofBits {b : UInt64}
    (h : unpackSign (show BitVec Format.binary64.numBits from b.toBitVec) = 0#1) :
    Unsigned (Float.ofBits b).toModel.unpack :=
  unsigned_pack (unsigned_unpack h)

theorem unsigned_float_ofNat {n : Nat} (h : n < 2 ^ 53) :
    Unsigned (Float.ofNat n).toModel.unpack := by
  have hone : Unsigned (Float.ofBits 0x3FF0000000000000).toModel.unpack :=
    unsigned_ofBits (by decide)
  have hdef : Float.ofNat n = n.toUInt64.toFloat * Float.ofBits 0x3FF0000000000000 :=
    dif_pos ⟨h, by decide⟩
  rw [hdef]
  exact unsigned_float_mul (unsigned_pack (unsigned_ofNat _)) hone

theorem not_neg_of_unsigned (h : Unsigned x.toModel.unpack) : ¬x < 0 := by
  intro hlt
  have hrank : Ranks.rank x.toModel.unpack < Ranks.rank (.zero .positive) := (lt_iff_rank.1 hlt).2.2
  cases hx : x.toModel.unpack with
  | notANumber => exact absurd (hx ▸ hrank) (by decide)
  | zero s => exact absurd (hx ▸ hrank) (lt_irrefl _)
  | infinity s =>
    rw [hx] at hrank h
    cases h
    exact absurd hrank (by decide)
  | finite s =>
    rw [hx] at hrank h
    cases h
    exact absurd hrank (not_lt.2 (Prod.Lex.toLex_lt_toLex.2 (.inl (by norm_num))).le)

/-- A number drawn from zero to below one is not below zero. -/
theorem unit_not_neg (r : Rng) : ¬r.unit.1 < 0 := by
  have hscale : Unsigned (Float.ofBits 0x3CA0000000000000).toModel.unpack :=
    unsigned_ofBits (by decide)
  have hsmall : (r.next64.1 >>> 11).toNat < 2 ^ 53 := by
    have hw := r.next64.1.toNat_lt
    rw [UInt64.toNat_shiftRight, Nat.shiftRight_eq_div_pow]
    exact Nat.div_lt_of_lt_mul hw
  exact not_neg_of_unsigned (unsigned_float_mul (unsigned_float_ofNat hsmall) hscale)

end PassTuner.Doubles

namespace PassTuner.Singles

open Float.Model BinaryFormat

/-- With its sign turned, what is above zero is below. -/
theorem neg_le_self {x : Float32} (h : 0 < x) : -x ≤ x := by
  have hdef : (-x).toModel.unpack = UnpackedFloat.unpack .binary32
    (UnpackedFloat.pack .binary32 (UnpackedFloat.neg x.toModel.unpack)) := rfl
  obtain ⟨_, hnumber, hrank⟩ := lt_iff_rank.1 h
  suffices hneg : (-x).toModel.unpack.isNaN = false ∧ rank (-x) ≤ rank 0 from
    le_iff_rank.2 ⟨hneg.1, hnumber, hneg.2.trans hrank.le⟩
  unfold rank at hrank ⊢
  rw [hdef]
  have hzero : (0 : Float32).toModel.unpack = .zero .positive := rfl
  rw [hzero] at hrank ⊢
  cases hx : x.toModel.unpack with
  | notANumber => exact absurd (hx ▸ hrank) (by decide)
  | zero s => exact absurd (hx ▸ hrank) (lt_irrefl _)
  | infinity s =>
    cases s with
    | negative => exact absurd (hx ▸ hrank) (by decide)
    | positive => exact ⟨by decide, by decide⟩
  | finite s m e pos =>
    obtain ⟨hcanonical, hmax⟩ := canonical_of_unpack (F := .binary32) (by decide) hx
    cases s with
    | negative =>
      rw [hx] at hrank
      exact absurd hrank (not_lt.2 (Prod.Lex.toLex_lt_toLex.2 (.inl (by norm_num))).le)
    | positive =>
      have hback := unpack_pack (F := .binary32) .negative pos hcanonical hmax
      have hturn : UnpackedFloat.neg (.finite .positive m e pos) = .finite .negative m e pos := rfl
      rw [hturn, hback]
      exact ⟨rfl, (Prod.Lex.toLex_lt_toLex.2 (.inl (by norm_num))).le⟩

end PassTuner.Singles
