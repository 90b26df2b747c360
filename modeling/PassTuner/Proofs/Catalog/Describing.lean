import PassTuner.Catalog.Basic

/-!
# The flags of a variant

A catalog describes a variant by the flags of its actions, in order, so that of a variant with one
action more by one flag more.
-/

namespace PassTuner

namespace Variant

variable {u v : Variant} {action : ActionId}

theorem actions_of_extend? (h : u.extend? action = .ok v) : v.actions = u.actions ++ [action] := by
  unfold extend? at h
  split at h
  · cases h
    rfl
  · cases h

theorem ne_base_of_extend? (h : u.extend? action = .ok v) : v ≠ .base := by
  rintro rfl
  have hactions := actions_of_extend? h
  simp [base] at hactions

theorem isBase_iff : v.isBase ↔ v = .base := by
  constructor
  · intro h
    exact ext (List.isEmpty_iff.1 h)
  · rintro rfl
    rfl

end Variant

namespace Catalog

variable {catalog : Catalog} {u v : Variant} {action : ActionId} {flags : List String}
  {flag : String}

theorem describeAll_base (catalog : Catalog) :
    catalog.describeAll Variant.base.actions = .ok [] := by
  simp only [describeAll, Variant.base, List.mapM_nil]
  rfl

theorem describeAll_extend (hv : u.extend? action = .ok v)
    (hu : catalog.describeAll u.actions = .ok flags) (ha : catalog.describe action = .ok flag) :
    catalog.describeAll v.actions = .ok (flags ++ [flag]) := by
  unfold describeAll at hu ⊢
  rw [Variant.actions_of_extend? hv, List.mapM_append, hu]
  simp only [List.mapM_cons, List.mapM_nil, ha]
  rfl

end Catalog

end PassTuner
