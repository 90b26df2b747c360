import PassTuner.Proofs.Number.Arithmetic

/-!
# Laws of double-precision numbers

A number is computed with by unpacking its bits into sign, exponent and mantissa and packing the
result, and packing undoes unpacking. Main statements: nothing changes when zero is subtracted, and
what is taken off a number above zero does not make it larger.
-/

namespace PassTuner.Doubles

open Float.Model Float.Model.UnpackedFloat BinaryFormat

variable {u v : UnpackedFloat} {x y : Float}

theorem pack_unpack_model (x : Float.Model) : Float.Model.pack x.unpack = x := by
  obtain ⟨bits, valid⟩ := x
  simp only [Float.Model.pack, Float.Model.unpack, pack_unpack_of_valid valid]

theorem sub_zero (x : Float) : x - 0 = x := by
  have hzero : (0 : Float).toModel.unpack = .zero .positive := rfl
  have hsub : UnpackedFloat.sub .binary64 x.toModel.unpack (.zero .positive) =
      x.toModel.unpack := by
    cases x.toModel.unpack with
    | zero s => cases s <;> rfl
    | _ => rfl
  have hdef : x - 0 = .ofModel (Float.Model.pack (UnpackedFloat.sub .binary64 x.toModel.unpack
    (0 : Float).toModel.unpack)) := rfl
  rw [hdef, hzero, hsub, pack_unpack_model]

/-! ## Signs -/

/-- With a sign a number is not above zero. -/
theorem rank_of_sign {b : BitVec Format.binary64.numBits}
    (h : Sign.ofBitVec (unpackSign b) = .negative) :
    Ranks.rank (UnpackedFloat.unpack .binary64 b) ≤ Ranks.rank (.zero .positive) := by
  simp only [UnpackedFloat.unpack, h]
  split
  · split <;> decide
  · split
    · split
      · decide
      · exact (Prod.Lex.toLex_lt_toLex.2 (.inl (by norm_num))).le
    · exact (Prod.Lex.toLex_lt_toLex.2 (.inl (by norm_num))).le

theorem rank_pack_negative {u : UnpackedFloat}
    (h : u = .zero .negative ∨ u = .infinity .negative ∨ ∃ m e pos, u = .finite .negative m e pos) :
    Ranks.rank (UnpackedFloat.unpack .binary64 (UnpackedFloat.pack .binary64 u)) ≤
      Ranks.rank (.zero .positive) := by
  have hsign (b : BitVec 11) (v : BitVec 52) :
      Sign.ofBitVec (unpackSign (packComponents .binary64 .negative b v)) = .negative := by
    rw [unpackSign_packComponents, Sign.ofBitVec_toBitVec]
  refine rank_of_sign ?_
  rcases h with rfl | rfl | ⟨m, e, pos, rfl⟩
  · exact hsign _ _
  · exact hsign _ _
  · simp only [UnpackedFloat.pack]
    split
    · exact hsign _ _
    · split <;> exact hsign _ _

theorem round_negative (m : ℕ) (e : ℤ) :
    UnpackedFloat.round .binary64 .negative m e = .zero .negative ∨
      ∃ m' e' pos, UnpackedFloat.round .binary64 .negative m e = .finite .negative m' e' pos := by
  simp only [UnpackedFloat.round, roundWithAccuracy]
  split
  · exact .inl rfl
  · rename_i hpos
    exact .inr ⟨_, _, Nat.pos_of_ne_zero hpos, rfl⟩

theorem rank_le_infinity (u : UnpackedFloat) : Ranks.rank u ≤ Ranks.rank (.infinity .positive) := by
  cases u with
  | notANumber => decide
  | zero s => cases s <;> decide
  | infinity s => cases s <;> decide
  | finite s =>
    cases s
    · exact (Prod.Lex.toLex_lt_toLex.2 (.inl (by norm_num))).le
    · exact (Prod.Lex.toLex_lt_toLex.2 (.inl (by norm_num))).le

/-! ## Subtracting -/

/-- A finite number above zero less another one is not above the first one. -/
theorem rank_sub_finite_le {m m' : ℕ} {e e' : ℤ} {pos : 0 < m} {pos' : 0 < m'}
    (hc : double.Canonical m e) (hc' : double.Canonical m' e')
    (he : e ≤ maxExponent .binary64) :
    Ranks.rank (UnpackedFloat.unpack .binary64 (UnpackedFloat.pack .binary64
      (UnpackedFloat.sub .binary64 (.finite .positive m e pos) (.finite .positive m' e' pos')))) ≤
        Ranks.rank (.finite .positive m e pos) := by
  have hzero : Ranks.rank (.zero .positive) ≤ Ranks.rank (.finite .positive m e pos) :=
    (Prod.Lex.toLex_lt_toLex.2 (.inl (by norm_num))).le
  have hu : Stands double .positive (m * 2 ^ e) (.finite .positive m e pos) := .finite pos hc
  have hv : Stands double .positive (m' * 2 ^ e') (.finite .positive m' e' pos') := .finite pos' hc'
  rcases le_or_gt (m' * 2 ^ e' : ℚ) (m * 2 ^ e) with hle | hlt
  · obtain ⟨w, hrounds, hw⟩ := sub_stands (F := .binary64) hu hv hle
    have hless : w ≤ m * 2 ^ e := hrounds.le hc (sub_le_self _ (by positivity))
    have hsize : w < 2 ^ (maxExponent .binary64 + Format.binary64.mantissaBits) := by
      refine hless.trans_lt (hc.lt_two_zpow.trans_le (zpow_le_zpow_right₀ one_le_two ?_))
      change e + (52 : ℕ) + 1 ≤ maxExponent .binary64 + (53 : ℕ)
      omega
    rw [hw.unpack_pack (by decide) hsize]
    exact not_lt.1 fun hrank => ((hu.lt_iff hw).1 hrank).not_ge hless
  · have hwhole := mul_zpow_div m (min_le_left e e')
    have hwhole' := mul_zpow_div m' (min_le_right e e')
    have hneg : ((m * 2 ^ (e - min e e').toNat : ℕ) : ℤ) -
        (m' * 2 ^ (e' - min e e').toNat : ℕ) < 0 := by
      have hnat : m * 2 ^ (e - min e e').toNat < m' * 2 ^ (e' - min e e').toNat := by
        rw [← Nat.cast_lt (α := ℚ), ← hwhole, ← hwhole']
        gcongr
      omega
    rw [sub_finite, UnpackedFloat.normalize, Int.compare_eq_lt.2 hneg]
    exact (rank_pack_negative ((round_negative _ _).imp_right .inr)).trans hzero

/-- What is taken off a number above zero does not make it larger. -/
theorem sub_le_self (hx : 0 < x) (hy : 0 ≤ y) (h : (x - y).isNaN = false) : x - y ≤ x := by
  obtain ⟨-, hxn, hxr⟩ := lt_iff_rank.1 hx
  obtain ⟨-, hyn, hyr⟩ := le_iff_rank.1 hy
  refine le_iff_rank.2 ⟨h, hxn, ?_⟩
  change Ranks.rank (UnpackedFloat.unpack .binary64 (UnpackedFloat.pack .binary64
    (UnpackedFloat.sub .binary64 x.toModel.unpack y.toModel.unpack))) ≤ Ranks.rank x.toModel.unpack
  unfold rank at hxr hyr
  change y.toModel.unpack.isNaN = false at hyn
  cases hu : x.toModel.unpack with
  | notANumber => exact absurd (hu ▸ hxr) (lt_irrefl _)
  | zero s => exact absurd (hu ▸ hxr) (lt_irrefl _)
  | infinity s =>
    cases s with
    | negative => exact absurd (hu ▸ hxr) (by decide)
    | positive => exact rank_le_infinity _
  | finite s m e pos =>
    cases s with
    | negative =>
      exact absurd (hu ▸ hxr) (not_lt.2 (Prod.Lex.toLex_lt_toLex.2 (.inl (by norm_num))).le)
    | positive =>
      obtain ⟨hc, he⟩ := canonical_of_unpack (by decide) hu
      cases hv : y.toModel.unpack with
      | notANumber => rw [hv] at hyn; cases hyn
      | zero s' => exact (congrArg Ranks.rank (BinaryFormat.unpack_pack _ pos hc he)).le
      | infinity s' =>
        cases s' with
        | negative => exact absurd (hv ▸ hyr) (by decide)
        | positive => exact (rank_pack_negative (.inr (.inl rfl))).trans (hu ▸ hxr).le
      | finite s' m' e' pos' =>
        cases s' with
        | negative =>
          exact absurd (hv ▸ hyr) (not_le.2 (Prod.Lex.toLex_lt_toLex.2 (.inl (by norm_num))))
        | positive =>
          exact rank_sub_finite_le hc (canonical_of_unpack (by decide) hv).1 he

end PassTuner.Doubles
