import PassTuner.Proofs.Number.Order
import PassTuner.Training.Greedy

/-!
# The greatest of the scores

The scores are gone through once, with the best so far at hand. What is passed over is none or not
above the best, so that the best stays above all numbers before it and is not below any after it.
There is at most one such position. Main statement: that position is the answer, and there is an
answer just when not all scores are none.
-/

namespace PassTuner

/-- A position has a number that is above all numbers before it and not below any after it. -/
structure FirstGreatest (scores : List Float32) (i : Nat) (s : Float32) : Prop where
  found : scores[i]? = some s
  number : s.isNaN = false
  before : ∀ t ∈ scores.take i, t.isNaN = false → t < s
  after : ∀ t ∈ scores.drop (i + 1), t.isNaN = false → t ≤ s

namespace FirstGreatest

variable {scores : List Float32} {i j : Nat} {s t : Float32}

theorem lt_length (h : FirstGreatest scores i s) : i < scores.length :=
  (List.getElem?_eq_some_iff.1 h.found).1

/-- Of two such positions none is the earlier one. -/
theorem not_lt (h : FirstGreatest scores i s) (h' : FirstGreatest scores j t) : ¬i < j := by
  intro hlt
  have hbefore : s ∈ scores.take j :=
    List.mem_of_getElem? ((List.getElem?_take_of_lt hlt).trans h.found)
  have hafter : t ∈ scores.drop (i + 1) := by
    refine List.mem_of_getElem? (i := j - (i + 1)) ?_
    rw [List.getElem?_drop, Nat.add_sub_cancel' hlt]
    exact h'.found
  exact Singles.not_le_of_lt (h'.before s hbefore h.number) (h.after t hafter h'.number)

theorem unique (h : FirstGreatest scores i s) (h' : FirstGreatest scores j t) : i = j :=
  Nat.le_antisymm (Nat.le_of_not_lt (h'.not_lt h)) (Nat.le_of_not_lt (h.not_lt h'))

/-- Any number is not above it. -/
theorem le_of_mem (h : FirstGreatest scores i s) (ht : t ∈ scores) (hn : t.isNaN = false) :
    t ≤ s := by
  obtain ⟨hi, rfl⟩ := List.getElem?_eq_some_iff.1 h.found
  rw [← List.take_append_drop i scores, List.drop_eq_getElem_cons hi, List.mem_append,
    List.mem_cons] at ht
  rcases ht with hbefore | rfl | hafter
  · exact Singles.le_of_lt (h.before t hbefore hn)
  · exact Singles.le_refl hn
  · exact h.after t hafter hn

/-- A score that is none or not above the best one changes nothing. -/
theorem passed (h : FirstGreatest scores i s) (ht : t.isNaN = true ∨ t ≤ s) :
    FirstGreatest (scores ++ [t]) i s := by
  have hi := h.lt_length
  refine ⟨?_, h.number, ?_, ?_⟩
  · rw [List.getElem?_append_left hi, h.found]
  · rw [List.take_append_of_le_length hi.le]
    exact h.before
  · rw [List.drop_append_of_le_length hi]
    intro x hx hn
    rcases List.mem_append.1 hx with hx | hx
    · exact h.after x hx hn
    · rw [List.mem_singleton] at hx
      subst hx
      exact ht.resolve_left (by rw [hn]; exact Bool.false_ne_true)

/-- A number above all numbers so far is the new best one. -/
theorem last (hn : t.isNaN = false) (ht : ∀ x ∈ scores, x.isNaN = false → x < t) :
    FirstGreatest (scores ++ [t]) scores.length t :=
  ⟨by simp, hn, by simpa using ht, by simp⟩

end FirstGreatest

/-! ## The search -/

/-- What is at hand after some scores: nothing if all of them are none, else the best of them. -/
def Leads (seen : List Float32) : Option (Nat × Float32) → Prop
  | none => ∀ s ∈ seen, s.isNaN = true
  | some (i, s) => FirstGreatest seen i s

variable {seen rest scores : List Float32} {best : Option (Nat × Float32)} {i : Nat}

theorem Leads.next (h : Leads seen best) (s : Float32) :
    Leads (seen ++ [s])
      (if s.isNaN || best.any fun (_, b) => s ≤ b then best else some (seen.length, s)) := by
  cases hs : s.isNaN with
  | true =>
    rw [Bool.true_or, if_pos rfl]
    cases best with
    | none =>
      intro x hx
      rcases List.mem_append.1 hx with hx | hx
      · exact h x hx
      · exact List.mem_singleton.1 hx ▸ hs
    | some b => exact FirstGreatest.passed h (.inl hs)
  | false =>
    rw [Bool.false_or]
    cases best with
    | none =>
      refine FirstGreatest.last hs fun x hx hn => ?_
      rw [h x hx] at hn
      cases hn
    | some b =>
      simp only [Option.any_some, decide_eq_true_eq]
      split
      · rename_i hle
        exact FirstGreatest.passed h (.inr hle)
      · rename_i hle
        have habove : b.2 < s := Singles.lt_of_not_le hs h.number hle
        exact FirstGreatest.last hs fun x hx hn =>
          Singles.lt_of_le_of_lt (FirstGreatest.le_of_mem h hx hn) habove

/-- By induction on the scores to come: each of them leaves the best so far at hand. -/
theorem Leads.run (h : Leads seen best) :
    Leads (seen ++ rest) (argmaxFrom best seen.length rest) := by
  induction rest generalizing seen best with
  | nil => simpa [argmaxFrom] using h
  | cons s rest ih =>
    have hrest := ih (h.next s)
    rwa [List.append_assoc, List.length_append] at hrest

theorem leads_argmaxFrom (scores : List Float32) : Leads scores (argmaxFrom none 0 scores) := by
  have hnone : Leads [] none := by simp [Leads]
  exact hnone.run

theorem firstGreatest_of_argmax (h : argmax scores = some i) : ∃ s, FirstGreatest scores i s := by
  obtain ⟨⟨j, s⟩, hfound, rfl⟩ := Option.map_eq_some_iff.1 h
  have hleads := leads_argmaxFrom scores
  rw [hfound] at hleads
  exact ⟨s, hleads⟩

/-- Only scores that are all none have no best one. -/
theorem isNaN_of_argmax_none (h : argmax scores = none) : ∀ s ∈ scores, s.isNaN = true := by
  have hleads := leads_argmaxFrom scores
  rwa [Option.map_eq_none_iff.1 h] at hleads

theorem argmax_lt (h : argmax scores = some i) : i < scores.length :=
  (firstGreatest_of_argmax h).elim fun _ hs => hs.lt_length

/-- There is no answer just when all scores are none. Otherwise it is the one position of a number
that is above all numbers before it and not below any after it. -/
theorem argmax_firstGreatest (scores : List Float32) :
    (argmax scores = none ↔ ∀ s ∈ scores, s.isNaN = true) ∧
      ∀ i, argmax scores = some i ↔ ∃ s, FirstGreatest scores i s := by
  have hsome (i : Nat) : argmax scores = some i ↔ ∃ s, FirstGreatest scores i s := by
    refine ⟨firstGreatest_of_argmax, fun ⟨s, hs⟩ => ?_⟩
    cases hbest : argmax scores with
    | none =>
      have hnone := isNaN_of_argmax_none hbest s (List.mem_of_getElem? hs.found)
      rw [hs.number] at hnone
      cases hnone
    | some j =>
      obtain ⟨t, ht⟩ := firstGreatest_of_argmax hbest
      rw [ht.unique hs]
  refine ⟨⟨isNaN_of_argmax_none, fun hnone => ?_⟩, hsome⟩
  cases hbest : argmax scores with
  | none => rfl
  | some i =>
    obtain ⟨s, hs⟩ := firstGreatest_of_argmax hbest
    have hnumber := hnone s (List.mem_of_getElem? hs.found)
    rw [hs.number] at hnumber
    cases hnumber

/-- Zeros are equal, with or without a sign, so that the first of them stays the best. -/
example : argmax [0 / 0, -0.0, 0.0, 1 / 0, 0 / 0, 1 / 0] = some 3 ∧
    argmax [0 / 0, -1.0, -0.0, 0.0] = some 2 := by decide +kernel

end PassTuner
