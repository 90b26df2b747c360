import Mathlib.Data.List.Perm.Subperm
import PassTuner.Training.Replay

/-!
# What the replay buffer holds

A walk that is recorded step by step decomposes into one transition a step, each from the
observation before the step to the one after it. The buffer takes in transitions of episodes and
loses others; it never holds one twice that came in once. Main statements: what is in the buffer
after an episode was pushed, and after a sample was taken.
-/

namespace PassTuner

namespace Episode

variable {e : Episode} {o next : Observation} {action : ActionId} {reward : Float}
  {states : List Observation} {steps : List (ActionId × Float)} {x : Transition}

/-- The episode was recorded step by step, and has come to an observation. -/
structure At (e : Episode) (o : Observation) : Prop where
  length : e.states.length = e.steps.length + 1
  last : e.states.getLast? = some o

theorem at_start (o : Observation) : At (start o) o := ⟨rfl, rfl⟩

theorem At.record (h : At e o) (action : ActionId) (reward : Float) (next : Observation) :
    At (e.record action reward next) next :=
  ⟨by simp [Episode.record, h.length], by simp [Episode.record]⟩

theorem transitionsFrom_concat (length : states.length = steps.length + 1)
    (last : states.getLast? = some o) :
    transitionsFrom (states ++ [next]) (steps ++ [(action, reward)]) =
      transitionsFrom states steps ++ [⟨o, action, reward, next⟩] := by
  induction steps generalizing states with
  | nil =>
    obtain ⟨state, rfl⟩ := List.length_eq_one_iff.1 length
    cases last
    rfl
  | cons step steps ih =>
    obtain _ | ⟨first, _ | ⟨second, rest⟩⟩ := states
    · cases length
    · cases length
    · have h : transitionsFrom (second :: rest ++ [next]) (steps ++ [(action, reward)]) =
          transitionsFrom (second :: rest) steps ++ [⟨o, action, reward, next⟩] :=
        ih (by simpa using length) (by simpa using last)
      simp only [List.cons_append, transitionsFrom] at h ⊢
      rw [h]

/-- One more step is one more transition, from where the episode had come to. -/
theorem At.transitions_record (h : At e o) (action : ActionId) (reward : Float)
    (next : Observation) :
    (e.record action reward next).transitions = e.transitions ++ [⟨o, action, reward, next⟩] :=
  transitionsFrom_concat h.length h.last

@[simp] theorem transitions_start (o : Observation) : (start o).transitions = [] := rfl

@[simp] theorem actions_record (e : Episode) (action : ActionId) (reward : Float)
    (next : Observation) : (e.record action reward next).actions = e.actions ++ [action] := by
  simp [actions, Episode.record]

end Episode

/-! ## Removing at random -/

theorem subperm_swapRemove (xs : List α) (i : Nat) : (swapRemove xs i).Subperm xs := by
  rcases List.eq_nil_or_concat xs with rfl | ⟨rest, last, rfl⟩
  · exact .refl _
  rw [List.concat_eq_append]
  have hremoved : swapRemove (rest ++ [last]) i = ((rest ++ [last]).set i last).dropLast := by
    simp only [swapRemove, List.getLast?_concat]
  rw [hremoved]
  by_cases hi : i < rest.length
  · rw [List.set_append_left _ _ hi, List.dropLast_concat]
    refine (List.set_perm_cons_eraseIdx hi last).subperm.trans ?_
    refine .trans ?_ (List.perm_append_singleton last rest).symm.subperm
    exact (List.subperm_cons last).2 (List.eraseIdx_sublist rest i).subperm
  · have hset : (rest ++ [last]).set i last = rest ++ [last] := by
      rw [List.set_append_right _ _ (Nat.le_of_not_lt hi)]
      cases i - rest.length <;> rfl
    rw [hset, List.dropLast_concat]
    exact (List.sublist_append_left rest [last]).subperm

namespace Replay

variable {b b' : Replay} {r r' : Rng} {batch : List Transition} {batchSize : Nat}

theorem subperm_evict {n : Nat} {entries : List Transition} (h : n ≤ entries.length) (r : Rng) :
    (evict n entries h r).1.Subperm entries := by
  induction n generalizing entries r with
  | zero => exact .refl _
  | succ n ih => exact (ih _ _).trans (subperm_swapRemove _ _)

@[simp] theorem capacity_push (b : Replay) (e : Episode) (r : Rng) :
    (b.push e r).1.capacity = b.capacity := by
  simp only [push]
  split <;> rfl

/-- What is in the buffer after a push was there before, or is of the episode. -/
theorem subperm_push (b : Replay) (e : Episode) (r : Rng) :
    (b.push e r).1.entries.Subperm (b.entries ++ e.transitions) := by
  simp only [push]
  split
  · exact (List.sublist_append_left _ _).subperm
  · exact (subperm_evict _ _).append (List.drop_sublist _ _).subperm

theorem subperm_takeOut (positions : List Nat) (entries : List Transition) :
    (takeOut positions entries).2.Subperm entries := by
  induction positions generalizing entries with
  | nil => exact .refl _
  | cons i rest ih => exact (ih _).trans (subperm_swapRemove _ _)

theorem subset_takeOut (positions : List Nat) (entries : List Transition) :
    (takeOut positions entries).1 ⊆ entries := by
  induction positions generalizing entries with
  | nil => exact List.nil_subset _
  | cons i rest ih =>
    refine List.append_subset.2 ⟨fun x hx => ?_, ?_⟩
    · exact List.mem_of_getElem? (Option.mem_toList.1 hx)
    · exact List.Subset.trans (ih _) (subperm_swapRemove _ _).subset

/-- A sample that is smaller than the buffer can be is there to be had. -/
theorem sample_ok (h : batchSize < b.capacity) (r : Rng) :
    ∃ batch b' r', b.sample batchSize r = .ok (batch, b', r') ∧ batch ⊆ b.entries ∧
      b'.entries.Subperm b.entries ∧ b'.capacity = b.capacity := by
  simp only [sample, if_neg (Nat.not_le.2 h)]
  cases b.policy with
  | retain =>
    refine ⟨_, _, _, rfl, fun x hx => ?_, .refl _, rfl⟩
    obtain ⟨i, _, hi⟩ := List.mem_filterMap.1 hx
    exact List.mem_of_getElem? hi
  | drain => exact ⟨_, _, _, rfl, subset_takeOut _ _, subperm_takeOut _ _, rfl⟩

theorem subperm_sample (h : b.sample batchSize r = .ok (batch, b', r')) :
    b'.entries.Subperm b.entries := by
  by_cases hle : b.capacity ≤ batchSize
  · simp [sample, hle] at h
  · obtain ⟨_, _, _, h', _, hkept, _⟩ := sample_ok (Nat.not_le.1 hle) r
    rw [h'] at h
    cases h
    exact hkept

end Replay

end PassTuner
