import PassTuner.Proofs.Number.Doubles
import PassTuner.Variant.Cost

/-!
# Products and sums that come to nothing

A number is void if it is zero or no number at all. Products of void numbers are void, and no void
number is a cost; any other number stays the same when zero is added to it.
-/

namespace PassTuner.Doubles

open Float.Model Float.Model.UnpackedFloat

/-- Zero, or no number. -/
def VoidUnpacked : UnpackedFloat → Prop
  | .zero _ => True
  | .notANumber => True
  | _ => False

def Void (x : Float) : Prop := VoidUnpacked x.toModel.unpack

variable {x y : Float} {u : UnpackedFloat}

theorem voidUnpacked_pack (h : VoidUnpacked u) :
    VoidUnpacked (UnpackedFloat.unpack .binary64 (UnpackedFloat.pack .binary64 u)) := by
  cases u with
  | zero s => cases s <;> trivial
  | notANumber => trivial
  | infinity => exact h.elim
  | finite => exact h.elim

theorem Void.mul (h : Void x) (y : Float) : Void (x * y) := by
  have product : VoidUnpacked (UnpackedFloat.mul .binary64 x.toModel.unpack y.toModel.unpack) := by
    unfold Void at h
    cases hx : x.toModel.unpack with
    | zero s => cases y.toModel.unpack <;> trivial
    | notANumber => cases y.toModel.unpack <;> trivial
    | infinity => rw [hx] at h; exact h.elim
    | finite => rw [hx] at h; exact h.elim
  exact voidUnpacked_pack product

theorem Void.foldl {α : Type} (h : Void x) (f : α → Float) (factors : List α) :
    Void (factors.foldl (fun product factor => product * f factor) x) := by
  induction factors generalizing x with
  | nil => exact h
  | cons factor factors ih => exact ih (h.mul (f factor))

/-- Adding zeros to a number is adding them to its parts. -/
theorem add_zeros_def (x : Float) : 0 + x + 0 = .ofModel (Float.Model.pack (UnpackedFloat.add
    .binary64 (Float.Model.pack (UnpackedFloat.add .binary64 (.zero .positive)
      x.toModel.unpack)).unpack (.zero .positive))) := rfl

theorem add_zeros (h : ¬Void x) : 0 + x + 0 = x := by
  have parts : UnpackedFloat.add .binary64 (.zero .positive) x.toModel.unpack = x.toModel.unpack ∧
      UnpackedFloat.add .binary64 x.toModel.unpack (.zero .positive) = x.toModel.unpack := by
    unfold Void at h
    cases hx : x.toModel.unpack with
    | zero => rw [hx] at h; exact absurd trivial h
    | notANumber => rw [hx] at h; exact absurd trivial h
    | infinity => exact ⟨rfl, rfl⟩
    | finite => exact ⟨rfl, rfl⟩
  rw [add_zeros_def, parts.1, pack_unpack_model, parts.2, pack_unpack_model]

theorem Void.add_zeros (h : Void x) : Void (0 + x + 0) := by
  rw [add_zeros_def]
  unfold Void at h
  cases hx : x.toModel.unpack with
  | zero s => cases s <;> trivial
  | notANumber => trivial
  | infinity => rw [hx] at h; exact h.elim
  | finite => rw [hx] at h; exact h.elim

theorem not_pos_of_void (h : Void x) : ¬0 < x := by
  intro pos
  obtain ⟨-, number, above⟩ := lt_iff_rank.1 pos
  change x.toModel.unpack.isNaN = false at number
  change Ranks.rank (.zero .positive) < Ranks.rank x.toModel.unpack at above
  unfold Void at h
  cases hx : x.toModel.unpack with
  | zero s => exact absurd (hx ▸ above) (lt_irrefl _)
  | notANumber => rw [hx] at number; cases number
  | infinity => rw [hx] at h; exact h.elim
  | finite => rw [hx] at h; exact h.elim

/-- A cost to which zeros were added is the number that they were added to. -/
theorem of_isValid_add_zeros (h : Cost.isValid (0 + x + 0)) : ¬Void x ∧ 0 + x + 0 = x := by
  have full : ¬Void x := fun void => by
    simp only [Cost.isValid, Bool.and_eq_true, decide_eq_true_eq] at h
    exact not_pos_of_void void.add_zeros h.2
  exact ⟨full, add_zeros full⟩

end PassTuner.Doubles
