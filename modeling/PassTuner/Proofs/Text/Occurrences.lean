import PassTuner.Text.Search
import Mathlib.Data.List.Infix

/-!
# Occurrences

Searching finds a pattern just when it occurs, and finds its first occurrence. A pattern that cannot
overlap with itself is found where it was put, whatever follows, as long as it does not occur
before: no occurrence straddles the seam.
-/

namespace PassTuner.Text

variable {pattern text before after : List Char}

theorem cut?_eq_none_iff : cut? pattern text = none ↔ ¬pattern <:+: text := by
  induction text with
  | nil => simp [cut?]
  | cons c rest ih =>
    rw [cut?, List.infix_cons_iff, ← List.isPrefixOf_iff_prefix]
    split
    · simp_all
    · simp_all

theorem contains_iff : contains pattern text = true ↔ pattern <:+: text := by
  rw [contains, ← Option.not_isNone, Bool.not_eq_true', Option.isNone_eq_false_iff,
    Option.isSome_iff_ne_none, Ne, cut?_eq_none_iff, not_not]

/-- No proper ending of the pattern is one of its beginnings. -/
def Unbordered (pattern : List Char) : Prop :=
  ∀ n < pattern.length, 0 < n → ¬(pattern.drop n).isPrefixOf pattern

instance (pattern : List Char) : Decidable (Unbordered pattern) :=
  inferInstanceAs (Decidable (∀ n < pattern.length, 0 < n → ¬(pattern.drop n).isPrefixOf pattern))

/-- In front of an occurrence nothing but another occurrence, or the occurrence itself, begins with
the pattern. -/
theorem Unbordered.not_prefix (unbordered : Unbordered pattern) (hne : before ≠ [])
    (free : ¬pattern <:+: before) (after : List Char) :
    ¬pattern <+: before ++ (pattern ++ after) := by
  intro start
  rcases le_or_gt pattern.length before.length with short | long
  · exact free (List.prefix_of_prefix_length_le start (List.prefix_append _ _) short).isInfix
  · -- The pattern begins in front of the seam and ends behind it.
    have overlap : pattern.drop before.length <+: pattern ++ after := by
      have := start.drop before.length
      rwa [List.drop_left] at this
    have border : pattern.drop before.length <+: pattern :=
      List.prefix_of_prefix_length_le overlap (List.prefix_append _ _) (by simp)
    exact unbordered _ long (List.length_pos_iff.2 hne) (List.isPrefixOf_iff_prefix.2 border)

theorem cut?_self_append (hne : pattern ≠ []) (after : List Char) :
    cut? pattern (pattern ++ after) = some ([], after) := by
  obtain ⟨c, rest, rfl⟩ := List.exists_cons_of_ne_nil hne
  simp [cut?]

/-- A pattern that was put behind a text without it is found there. -/
theorem cut?_append (unbordered : Unbordered pattern) (hne : pattern ≠ [])
    (free : ¬pattern <:+: before) (after : List Char) :
    cut? pattern (before ++ (pattern ++ after)) = some (before, after) := by
  induction before with
  | nil => exact cut?_self_append hne after
  | cons c rest ih =>
    have here := unbordered.not_prefix (List.cons_ne_nil c rest) free after
    rw [List.cons_append] at here ⊢
    rw [cut?, if_neg (mt List.isPrefixOf_iff_prefix.1 here),
      ih fun there => free (List.infix_cons there)]
    rfl

/-- The second of the pieces between the occurrences of a pattern begins behind the first
occurrence, and ends before the next if there is one. -/
theorem second_splitOn (hne : pattern ≠ []) (text : List Char) :
    (splitOn pattern text)[1]? = (cut? pattern text).map fun (_, after) =>
      ((cut? pattern after).map (·.1)).getD after := by
  rw [splitOn, dif_neg hne, pieces]
  split
  · rename_i h
    simp [h]
  · rename_i after h
    rw [pieces]
    split <;> simp_all

end PassTuner.Text
