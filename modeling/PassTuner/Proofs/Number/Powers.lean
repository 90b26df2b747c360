import PassTuner.Network.Adam
import PassTuner.Proofs.Number.Arithmetic

/-!
# Powers of a number below one

A product of numbers from zero to below one is not above the last number before one, which the
format has, and rounding does not go past it. Main statement: so a power of such a number stays
below one however often it is multiplied, and something is left when it is taken off one.
-/

namespace PassTuner

open Float.Model Float.Model.UnpackedFloat BinaryFormat

namespace Singles

variable {x y : Float32} {q v : ℚ} {u : UnpackedFloat}

/-- A single is a rational that is not below zero. -/
def Is (x : Float32) (q : ℚ) : Prop := Stands single .positive q x.toModel.unpack

/-- A single is a rational from zero to below one. -/
def Below (x : Float32) : Prop := ∃ q, Is x q ∧ q < 1

theorem canonical_one : single.Canonical (2 ^ 23) (-23) := by
  refine ⟨?_, ?_, .inl ?_⟩ <;> simp

/-- The last number before one. -/
theorem canonical_last : single.Canonical (2 ^ 24 - 1) (-24) := by
  refine ⟨?_, ?_, .inl ?_⟩ <;> simp

/-- The distance from there to one. -/
theorem canonical_gap : single.Canonical (2 ^ 23) (-47) := by
  refine ⟨?_, ?_, .inl ?_⟩ <;> simp

theorem is_one : Is 1 1 := by
  have hstands : Stands single .positive _ (.finite .positive (2 ^ 23) (-23) (by decide)) :=
    .finite _ canonical_one
  norm_num at hstands
  exact hstands

theorem is_zero : Is 0 0 := .zero

theorem Is.nonneg (h : Is x q) : 0 ≤ q := by
  unfold Is at h
  generalize x.toModel.unpack = u at h
  cases h with
  | zero => exact le_rfl
  | finite => positivity

theorem Is.le_last (h : Is x q) (hq : q < 1) : q ≤ 1 - 1 / 2 ^ 24 := by
  unfold Is at h
  generalize x.toModel.unpack = u at h
  cases h with
  | zero => norm_num
  | @finite m e pos hc =>
    have hlt : (m * 2 ^ e : ℚ) < (2 * single.hiddenBit : ℕ) * 2 ^ (-24 : ℤ) :=
      hq.trans_eq (by norm_num)
    have hle := hc.le_of_lt_two_zpow hlt
    norm_num at hle ⊢
    exact hle

/-- What is not above one is unpacked again after it was computed. -/
theorem unpack_pack_of_le (h : Stands single .positive v u) (hv : v ≤ 1) :
    UnpackedFloat.unpack .binary32 (UnpackedFloat.pack .binary32 u) = u := by
  refine Stands.unpack_pack (F := .binary32) (by decide) h (hv.trans_lt ?_)
  exact one_lt_zpow₀ one_lt_two (by decide)

theorem Is.isNaN (h : Is x q) : x.isNaN = false := by
  unfold Is at h
  change x.toModel.unpack.isNaN = false
  generalize x.toModel.unpack = u at h
  cases h <;> rfl

theorem Is.lt (hx : Is x q) (hy : Is y v) (h : q < v) : x < y :=
  lt_iff_rank.2 ⟨hx.isNaN, hy.isNaN, (Stands.lt_iff hx hy).2 h⟩

theorem Is.le (hx : Is x q) (hy : Is y v) (h : q ≤ v) : x ≤ y :=
  le_iff_rank.2 ⟨hx.isNaN, hy.isNaN, not_lt.1 fun hlt => ((Stands.lt_iff hy hx).1 hlt).not_ge h⟩

/-! ## Products and differences -/

/-- A product of a number not above one and one below is below one. -/
theorem Is.mul_below (hx : Is x q) (hq : q ≤ 1) (hy : Below y) : Below (x * y) := by
  obtain ⟨r, hr, hlt⟩ := hy
  obtain ⟨v, hrounds, hv⟩ := mul_stands (F := .binary32) hx hr
  have hlast : v ≤ 1 - 1 / 2 ^ 24 := by
    have hle : v ≤ (2 ^ 24 - 1 : ℕ) * 2 ^ (-24 : ℤ) := by
      refine hrounds.le canonical_last ?_
      calc q * r ≤ 1 * r := by gcongr; exact hr.nonneg
        _ ≤ 1 - 1 / 2 ^ 24 := by rw [one_mul]; exact hr.le_last hlt
        _ = _ := by norm_num
    norm_num at hle ⊢
    exact hle
  have hone : v < 1 := hlast.trans_lt (by norm_num)
  have hunpack : (x * y).toModel.unpack =
      UnpackedFloat.mul .binary32 x.toModel.unpack y.toModel.unpack := unpack_pack_of_le hv hone.le
  refine ⟨v, ?_, hone⟩
  rw [Is, hunpack]
  exact hv

/-- Something is left of one when a number below one is taken off. -/
theorem Below.one_sub_pos (hx : Below x) : 0 < 1 - x := by
  obtain ⟨q, hq, hlt⟩ := hx
  obtain ⟨v, hrounds, hv⟩ := sub_stands (F := .binary32) is_one hq hlt.le
  have hgap : 0 < v := by
    refine lt_of_lt_of_le (by positivity) (hrounds.ge canonical_gap ?_)
    have := hq.le_last hlt
    norm_num at this ⊢
    linarith
  have hone : v ≤ 1 := by
    have hle : v ≤ (2 ^ 23 : ℕ) * 2 ^ (-23 : ℤ) := by
      refine hrounds.le canonical_one ?_
      have := hq.nonneg
      norm_num
      linarith
    norm_num at hle
    exact hle
  have hunpack : (1 - x).toModel.unpack =
      UnpackedFloat.sub .binary32 (1 : Float32).toModel.unpack x.toModel.unpack :=
    unpack_pack_of_le hv hone
  have his : Is (1 - x) v := by
    rw [Is, hunpack]
    exact hv
  exact is_zero.lt his hgap

theorem Below.nonneg (hx : Below x) : 0 ≤ x :=
  hx.elim fun _ hq => is_zero.le hq.1 hq.1.nonneg

theorem Below.lt_one (hx : Below x) : x < 1 := hx.elim fun _ hq => hq.1.lt is_one hq.2

end Singles

namespace Adam

open Singles

/-- By induction on the squarings: what is multiplied is below one, and something is. -/
theorem below_powNat {result base : Float32} {exponent : ℕ} (hbase : Below base)
    (hresult : ∃ q, Is result q ∧ q ≤ 1) (hpos : 0 < exponent) :
    Below (powNat result base exponent) := by
  induction exponent using Nat.strong_induction_on generalizing result base with
  | _ exponent ih =>
    obtain ⟨q, hq, hle⟩ := hresult
    have hproduct : Below (result * base) := hq.mul_below hle hbase
    have hsquare : Below (base * base) :=
      hbase.elim fun _ hr => hr.1.mul_below hr.2.le hbase
    rw [powNat]
    split
    · rename_i hlast
      rw [if_pos (by omega)]
      exact hproduct
    · refine ih _ (by omega) hsquare ?_ (by omega)
      split
      · exact hproduct.imp fun _ hr => ⟨hr.1, hr.2.le⟩
      · exact ⟨q, hq, hle⟩

theorem below_pow {base : Float32} {exponent : ℤ} (hbase : Below base) (hpos : 1 ≤ exponent) :
    Below (pow base exponent) := by
  unfold pow
  rw [if_neg (by omega)]
  exact below_powNat hbase ⟨1, is_one, le_rfl⟩ (by omega)

theorem below_momentDecay : Below momentDecay := by
  have hc : single.Canonical 15099494 (-24) := by
    refine ⟨?_, ?_, .inl ?_⟩ <;> simp
  have hstands : Is momentDecay (15099494 * 2 ^ (-24 : ℤ)) := .finite (by decide) hc
  exact ⟨_, hstands, by norm_num⟩

theorem below_squareDecay : Below squareDecay := by
  have hc : single.Canonical 16760439 (-24) := by
    refine ⟨?_, ?_, .inl ?_⟩ <;> simp
  have hstands : Is squareDecay (16760439 * 2 ^ (-24 : ℤ)) := .finite (by decide) hc
  exact ⟨_, hstands, by norm_num⟩

end Adam

end PassTuner
