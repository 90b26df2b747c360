import Mathlib
import PassTuner.Random.Subset

/-!
# What a random choice of indices is

Each of the ways to choose keeps an invariant of its own: a shuffle stays a permutation of all
indices, collecting keeps what was taken below the next bound, and drawing until new keeps it apart.
Main statement: the choice is of as many distinct indices as were asked for, all in range.
-/

namespace PassTuner.Rng

variable {length amount : Nat} {picked : List Nat}

/-- So many distinct indices in range. -/
structure Chooses (length amount : Nat) (picked : List Nat) : Prop where
  nodup : picked.Nodup
  size : picked.length = amount
  below : ∀ i ∈ picked, i < length

theorem Chooses.perm {picked' : List Nat} (h : Chooses length amount picked)
    (hp : picked'.Perm picked) : Chooses length amount picked' :=
  ⟨hp.nodup_iff.2 h.nodup, hp.length_eq.trans h.size, fun i hi => h.below i (hp.subset hi)⟩

theorem chooses_nil (length : Nat) : Chooses length 0 [] :=
    ⟨.nil, rfl, fun _ h => absurd h List.not_mem_nil⟩

/-- One more index, which was not taken. -/
theorem Chooses.concat {i : Nat} (h : Chooses length amount picked) (hi : i < length)
    (new : i ∉ picked) : Chooses length (amount + 1) (picked ++ [i]) := by
  have front : Chooses length (amount + 1) (i :: picked) := by
    refine ⟨List.nodup_cons.2 ⟨new, h.nodup⟩, by simp [h.size], fun k hk => ?_⟩
    rcases List.mem_cons.1 hk with rfl | hk
    · exact hi
    · exact h.below k hk
  exact front.perm (List.perm_append_singleton i picked)

/-- What was chosen below a bound does not have the bound in it. -/
theorem Chooses.step (h : Chooses length amount picked) :
    Chooses (length + 1) amount picked ∧ length ∉ picked :=
  ⟨⟨h.nodup, h.size, fun i hi => Nat.lt_succ_of_lt (h.below i hi)⟩,
    fun hi => Nat.lt_irrefl _ (h.below _ hi)⟩

theorem between_lt {low high : Nat} (h : low < high) (r : Rng) :
    (between low high h r).1 < high := by
  have hdraw : (drawUntil word32 32 (high - low) (zone 32 (high - low)) patience r).1 <
      high - low := drawUntil_lt (fun r => r.next.1.toNat_lt) (Nat.sub_pos_of_lt h) _ _ r
  simp only [between]
  omega

theorem belowWide_lt {n : Nat} (hn : 0 < n) (r : Rng) : (belowWide n hn r).1 < n :=
  drawUntil_lt (fun r => r.next.1.toNat_lt) hn _ _ r

/-! ## Shuffles -/

theorem swapIfInBounds_perm (a : Array Nat) (i j : Nat) :
    (a.swapIfInBounds i j).toList.Perm a.toList := by
  unfold Array.swapIfInBounds
  split
  · split
    · exact (Array.swap_perm _ _).toList
    · exact .refl _
  · exact .refl _

theorem shuffleFront_perm {n i : Nat} (h : i + n ≤ length) (a : Array Nat) (r : Rng) :
    (shuffleFront length n i h a r).1.toList.Perm a.toList := by
  induction n generalizing i a r with
  | zero => exact .refl _
  | succ n ih => exact (ih _ _ _).trans (swapIfInBounds_perm a i _)

theorem shuffleDown_perm (n : Nat) (a : Array Nat) (r : Rng) :
    (shuffleDown n a r).1.toList.Perm a.toList := by
  induction n generalizing a r with
  | zero => exact .refl _
  | succ n ih => exact (ih _ _).trans (swapIfInBounds_perm a (n + 1) _)

theorem inPlace_chooses (h : amount ≤ length) (r : Rng) :
    Chooses length amount (inPlace length amount h r).1 := by
  have hperm : (shuffleFront length amount 0 (by omega) (Array.range length) r).1.toList.Perm
      (List.range length) := by
    simpa using shuffleFront_perm (by omega) (Array.range length) r
  refine ⟨?_, ?_, fun i hi => ?_⟩
  · exact (hperm.nodup_iff.2 List.nodup_range).sublist (List.take_sublist _ _)
  · simp only [inPlace, List.length_take, hperm.length_eq, List.length_range, Nat.min_eq_left h]
  · exact List.mem_range.1 (hperm.subset (List.mem_of_mem_take hi))

/-! ## Collecting -/

/-- Either the draw is new, or the bound is, which no earlier draw could be. -/
theorem collect_chooses (ordered : Bool) {n j amount : Nat} {taken : List Nat}
    (h : Chooses j amount taken) (r : Rng) :
    Chooses (j + n) (amount + n) (collect ordered n j taken r).1 := by
  induction n generalizing j amount taken r with
  | zero => exact h
  | succ n ih =>
    obtain ⟨wider, new⟩ := h.step
    have onward {next : List Nat} (one : Chooses (j + 1) (amount + 1) next) (r : Rng) :
        Chooses (j + (n + 1)) (amount + (n + 1)) (collect ordered n (j + 1) next r).1 := by
      have hrest := ih one r
      rwa [Nat.add_right_comm, Nat.add_right_comm amount] at hrest
    unfold collect
    dsimp only
    refine onward ?_ _
    split
    · rename_i hnone
      exact wider.concat (between_lt _ r) (List.idxOf?_eq_none_iff.1 hnone)
    · rename_i p hp
      split
      · obtain ⟨hp, _⟩ := List.idxOf?_eq_some_iff.1 hp
        refine (wider.concat (Nat.lt_succ_self j) new).perm ?_
        exact (List.perm_insertIdx j taken (Nat.le_of_lt hp)).trans
          (List.perm_append_singleton j taken).symm
      · exact wider.concat (Nat.lt_succ_self j) new

theorem collected_chooses (h : amount ≤ length) (r : Rng) :
    Chooses length amount (collected length amount r).1 := by
  have hcollect := collect_chooses (decide (amount < orderedBelow)) (n := amount)
    (chooses_nil (length - amount)) r
  rw [Nat.sub_add_cancel h, Nat.zero_add] at hcollect
  unfold collected
  dsimp only
  split
  · exact hcollect
  · exact hcollect.perm (by simpa using shuffleDown_perm (amount - 1) _ _)

/-! ## Drawing until new -/

theorem drawNew_new (hl : 0 < length) (room : amount < length) (h : Chooses length amount picked)
    (tries : Nat) (r : Rng) :
    (drawNew length hl picked tries r).1 < length ∧
      (drawNew length hl picked tries r).1 ∉ picked := by
  induction tries generalizing r with
  | zero =>
    have hfound : ((List.range length).find? (· ∉ picked)).isSome := by
      by_contra hnone
      have hall : List.range length ⊆ picked := by
        intro i hi
        have := List.find?_eq_none.1 (Option.not_isSome_iff_eq_none.1 hnone) i hi
        simpa using this
      have := (List.nodup_range.subperm hall).length_le
      rw [List.length_range, h.size] at this
      omega
    obtain ⟨i, hi⟩ := Option.isSome_iff_exists.1 hfound
    simp only [drawNew, hi, Option.getD_some]
    exact ⟨List.mem_range.1 (List.mem_of_find?_eq_some hi), by simpa using List.find?_some hi⟩
  | succ tries ih =>
    simp only [drawNew]
    split
    · exact ih _
    · rename_i hnew
      exact ⟨belowWide_lt hl r, hnew⟩

theorem drawDistinct_chooses {n : Nat} (hn : n ≤ length) (room : amount + n ≤ length)
    (h : Chooses length amount picked) (r : Rng) :
    Chooses length (amount + n) (drawDistinct length n hn picked r).1 := by
  induction n generalizing amount picked r with
  | zero => exact h.perm (List.reverse_perm picked)
  | succ n ih =>
    unfold drawDistinct
    -- the fuel is a large literal, which must not be computed with
    generalize 64 * patience = tries
    obtain ⟨hlt, hnew⟩ := drawNew_new (by omega) (by omega) h tries r
    have one := (h.concat hlt hnew).perm (List.perm_append_singleton _ picked).symm
    have hrest := ih (by omega) (by omega) one (drawNew length (by omega) picked tries r).2
    rwa [Nat.add_right_comm] at hrest

theorem chooses_ite {c : Prop} [Decidable c] {x y : List Nat × Rng}
    (hx : Chooses length amount x.1) (hy : Chooses length amount y.1) :
    Chooses length amount (if c then x else y).1 := by
  split
  · exact hx
  · exact hy

/-- A random choice is of as many distinct indices as asked for, all in range. -/
theorem subset_chooses (h : amount ≤ length) (r : Rng) :
    Chooses length amount (subset length amount h r).1 := by
  have hshuffled := inPlace_chooses h r
  have hdrawn := drawDistinct_chooses h (by omega) (chooses_nil length) r
  rw [Nat.zero_add] at hdrawn
  unfold subset
  exact chooses_ite (chooses_ite hshuffled (collected_chooses h r)) (chooses_ite hshuffled hdrawn)

end PassTuner.Rng
