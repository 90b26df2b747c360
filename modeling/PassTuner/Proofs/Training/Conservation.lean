import PassTuner.Proofs.Random.Subsets
import PassTuner.Proofs.Training.Buffer

/-!
# What becomes of the transitions that were pushed

A ledger follows a buffer from when it was empty: what pushes offered to it, what made room for
them, what samples answered, and what they took out. A push evicts no more than it must, and of a
sample each entry stands at a position of its own. Taking out goes from the highest position down,
because then the entry that fills a gap comes from behind every position that is still to come. Main
statement: the books balance, after any number of uses and whatever is drawn.
-/

namespace PassTuner

/-! ## Removing -/

theorem swapRemove_eq {xs : List α} (h : xs ≠ []) (i : Nat) :
    swapRemove xs i = (xs.set i (xs.getLast h)).dropLast := by
  simp only [swapRemove, List.getLast?_eq_some_getLast h]

/-- Removing takes away the entry at the position and no other. -/
theorem perm_swapRemove {xs : List α} {i : Nat} (hi : i < xs.length) :
    (xs[i] :: swapRemove xs i).Perm xs := by
  obtain ⟨rest, last, rfl⟩ := List.eq_nil_or_concat xs |>.resolve_left
    (List.ne_nil_of_length_pos (Nat.zero_lt_of_lt hi))
  simp only [List.concat_eq_append] at hi ⊢
  have hremoved : swapRemove (rest ++ [last]) i = ((rest ++ [last]).set i last).dropLast := by
    simp only [swapRemove, List.getLast?_concat]
  rw [hremoved]
  by_cases hfront : i < rest.length
  · rw [List.set_append_left _ _ hfront, List.dropLast_concat, List.getElem_append_left hfront]
    calc rest[i] :: rest.set i last
      _ |>.Perm (rest[i] :: last :: rest.eraseIdx i) :=
        (List.set_perm_cons_eraseIdx hfront last).cons _
      _ |>.Perm (last :: rest[i] :: rest.eraseIdx i) := .swap ..
      _ |>.Perm (last :: rest) := (List.getElem_cons_eraseIdx_perm hfront).cons last
      _ |>.Perm (rest ++ [last]) := (List.perm_append_singleton last rest).symm
  · have hlast : i = rest.length := by
      rw [List.length_append, List.length_singleton] at hi
      omega
    subst hlast
    simp only [List.getElem_concat_length, List.set_append_right _ _ (Nat.le_refl _), Nat.sub_self,
      List.set_cons_zero, List.dropLast_concat]
    exact (List.perm_append_singleton last rest).symm

/-- The positions before the one that is removed keep their entries. -/
theorem getElem?_swapRemove {xs : List α} {i j : Nat} (hi : i < xs.length) (hj : j < i) :
    (swapRemove xs i)[j]? = xs[j]? := by
  rw [swapRemove_eq (List.ne_nil_of_length_pos (Nat.zero_lt_of_lt hi)), List.getElem?_dropLast,
    if_pos (by rw [List.length_set]; omega), List.getElem?_set_ne (by omega)]

namespace Replay

variable {b : Replay} {entries : List Transition} {positions : List Nat} {n : Nat}

/-- From the highest position down, taking out answers the entries that stood at the positions and
leaves all others. -/
theorem takeOut_spec (descending : positions.Pairwise (· > ·))
    (inside : ∀ i ∈ positions, i < entries.length) :
    (takeOut positions entries).1.map some = positions.map (entries[·]?) ∧
      ((takeOut positions entries).2 ++ (takeOut positions entries).1).Perm entries := by
  induction positions generalizing entries with
  | nil => exact ⟨rfl, by rw [takeOut, List.append_nil]⟩
  | cons i rest ih =>
    obtain ⟨hbefore, hrest⟩ := List.pairwise_cons.1 descending
    have hi := inside i List.mem_cons_self
    have hinside : ∀ j ∈ rest, j < (swapRemove entries i).length := fun j hj => by
      have := hbefore j hj
      rw [length_swapRemove]
      omega
    obtain ⟨htaken, hkept⟩ := ih hrest hinside
    have hsame : rest.map ((swapRemove entries i)[·]?) = rest.map (entries[·]?) :=
      List.map_congr_left fun j hj => getElem?_swapRemove hi (hbefore j hj)
    have hhead : (takeOut (i :: rest) entries).1 =
        entries[i] :: (takeOut rest (swapRemove entries i)).1 := by
      simp only [takeOut, List.getElem?_eq_getElem hi, Option.toList_some, List.singleton_append]
    refine ⟨?_, ?_⟩
    · rw [hhead, List.map_cons, List.map_cons, htaken, hsame, List.getElem?_eq_getElem hi]
    · rw [hhead]
      exact List.perm_middle.trans ((hkept.cons _).trans (perm_swapRemove hi))

/-! ## Uses -/

/-- The part of an episode that a buffer has room for. -/
def offered (b : Replay) (e : Episode) : List Transition := lastOf b.capacity e.transitions

theorem length_offered (b : Replay) (e : Episode) :
    (b.offered e).length = min e.transitions.length b.capacity := by
  simp only [offered, lastOf, List.length_drop]
  omega

theorem pos_of_succ_le (h : n + 1 ≤ entries.length) : 0 < entries.length := by omega

theorem le_length_removed (h : n + 1 ≤ entries.length) (r : Rng) :
    n ≤ (swapRemove entries (r.below entries.length (pos_of_succ_le h)).1).length := by
  rw [length_swapRemove]
  omega

/-- The entries that eviction takes away. -/
def victims : (n : Nat) → (entries : List Transition) → n ≤ entries.length → Rng → List Transition
  | 0, _, _, _ => []
  | _ + 1, entries, h, r =>
    let drawn := r.below entries.length (pos_of_succ_le h)
    (entries[drawn.1]?).toList ++
      victims _ (swapRemove entries drawn.1) (le_length_removed h r) drawn.2

theorem evict_victims (h : n ≤ entries.length) (r : Rng) :
    ((evict n entries h r).1 ++ victims n entries h r).Perm entries ∧
      (victims n entries h r).length = n := by
  induction n generalizing entries r with
  | zero => exact ⟨by rw [evict, victims, List.append_nil], rfl⟩
  | succ n ih =>
    have hdrawn := Rng.below_lt (pos_of_succ_le h) r
    obtain ⟨hperm, hlength⟩ :=
      ih (le_length_removed h r) (r.below entries.length (pos_of_succ_le h)).2
    simp only [evict, victims, List.getElem?_eq_getElem hdrawn, Option.toList_some,
      List.singleton_append, List.length_cons]
    refine ⟨?_, congrArg (· + 1) hlength⟩
    exact List.perm_middle.trans ((hperm.cons _).trans (perm_swapRemove hdrawn))

theorem overflow_offered_le (b : Replay) (e : Episode) :
    b.length + (b.offered e).length - b.capacity ≤ b.length := overflow_le b e.transitions

/-- What a push takes away to make room. -/
def evicted (b : Replay) (e : Episode) (r : Rng) : List Transition :=
  if b.offered e = [] then []
  else victims (b.length + (b.offered e).length - b.capacity) b.entries (overflow_offered_le b e) r

/-- What a push does: everything that is offered gets in, behind what is left of the entries, and no
more of these are taken away than there is too little room for. -/
structure Pushes (b : Replay) (e : Episode) (r : Rng) : Prop where
  placed : ∃ kept, (b.push e r).1 = { b with entries := kept ++ b.offered e } ∧
    (kept ++ b.evicted e r).Perm b.entries
  length_evicted : (b.evicted e r).length = b.length + (b.offered e).length - b.capacity

theorem pushes (fits : b.length ≤ b.capacity) (e : Episode) (r : Rng) : b.Pushes e r := by
  by_cases hnone : b.offered e = []
  · have hpush : b.push e r = (b, r) := by
      simp only [push]
      exact if_pos (.inl hnone)
    refine ⟨⟨b.entries, ?_, ?_⟩, ?_⟩
    · rw [hpush, hnone, List.append_nil]
    · rw [evicted, if_pos hnone, List.append_nil]
    · rw [evicted, if_pos hnone, hnone]
      simp only [List.length_nil]
      omega
  · have hroom : b.capacity ≠ 0 := by
      intro hzero
      have := length_offered b e
      rw [hzero, Nat.min_zero] at this
      exact hnone (List.eq_nil_of_length_eq_zero this)
    obtain ⟨hperm, hlength⟩ := evict_victims (overflow_le b e.transitions) r
    refine ⟨⟨(evict _ b.entries (overflow_le b e.transitions) r).1, ?_, ?_⟩, ?_⟩
    · unfold push
      exact congrArg Prod.fst (if_neg (not_or.2 ⟨hnone, hroom⟩))
    · rw [evicted, if_neg hnone]
      exact hperm
    · rw [evicted, if_neg hnone]
      exact hlength

/-- What a sample answers and leaves: as many entries as asked for or as there are, each from a
position of its own. -/
structure Samples (b : Replay) (batchSize : Nat) (batch : List Transition) (b' : Replay) :
    Prop where
  positions : ∃ positions, Rng.Chooses b.length (min batchSize b.length) positions ∧
    batch.map some = positions.map (b.entries[·]?)
  retained : b.policy = .retain → b' = b
  drained : b.policy = .drain →
    ∃ entries, b' = { b with entries } ∧ (entries ++ batch).Perm b.entries

theorem map_some_filterMap {xs : List α} (inside : ∀ i ∈ positions, i < xs.length) :
    (positions.filterMap (xs[·]?)).map some = positions.map (xs[·]?) := by
  induction positions with
  | nil => rfl
  | cons i rest ih =>
    rw [List.filterMap_cons, List.getElem?_eq_getElem (inside i List.mem_cons_self), List.map_cons,
      List.map_cons, ih fun j hj => inside j (List.mem_cons_of_mem i hj),
      List.getElem?_eq_getElem (inside i List.mem_cons_self)]

/-- Positions in descending order. -/
theorem chooses_descending {length amount : Nat} (h : Rng.Chooses length amount positions) :
    Rng.Chooses length amount (positions.mergeSort fun i j => decide (j ≤ i)) ∧
      (positions.mergeSort fun i j => decide (j ≤ i)).Pairwise (· > ·) := by
  have hsorted := h.perm (List.mergeSort_perm positions fun i j => decide (j ≤ i))
  refine ⟨hsorted, ?_⟩
  have hle : (positions.mergeSort fun i j => decide (j ≤ i)).Pairwise fun i j => decide (j ≤ i) :=
    List.pairwise_mergeSort (fun i j k hij hjk => by simp only [decide_eq_true_eq] at *; omega)
      (fun i j => by simp only [Bool.or_eq_true, decide_eq_true_eq]; omega) positions
  refine (hle.and hsorted.nodup).imp fun ⟨hij, hne⟩ => ?_
  simp only [decide_eq_true_eq] at hij
  omega

/-- A sample is refused exactly if it could not be smaller than the buffer, and is what it should be
otherwise. -/
theorem samples (b : Replay) (batchSize : Nat) (r : Rng) :
    if b.capacity ≤ batchSize then
      b.sample batchSize r = .error (.batchTooLarge batchSize b.capacity)
    else ∃ batch b' r', b.sample batchSize r = .ok (batch, b', r') ∧
      b.Samples batchSize batch b' := by
  unfold sample
  split
  · rfl
  · have hchosen := Rng.subset_chooses (Nat.min_le_right batchSize b.length) r
    cases hpolicy : b.policy with
    | retain =>
      refine ⟨_, _, _, rfl, ⟨_, hchosen, map_some_filterMap hchosen.below⟩, fun _ => rfl, ?_⟩
      intro hdrain
      rw [hpolicy] at hdrain
      cases hdrain
    | drain =>
      obtain ⟨hsorted, hdescending⟩ := chooses_descending hchosen
      obtain ⟨htaken, hkept⟩ := takeOut_spec hdescending hsorted.below
      refine ⟨_, _, _, rfl, ⟨_, hsorted, htaken⟩, ?_, fun _ => ⟨_, by rw [hpolicy], hkept⟩⟩
      intro hretain
      rw [hpolicy] at hretain
      cases hretain

theorem samples_of_ok {b b' : Replay} {batchSize : Nat} {r r' : Rng} {batch : List Transition}
    (h : b.sample batchSize r = .ok (batch, b', r')) : b.Samples batchSize batch b' := by
  have hsamples := samples b batchSize r
  split at hsamples
  · rw [h] at hsamples
    cases hsamples
  · obtain ⟨_, _, _, h', hsamples⟩ := hsamples
    rw [h] at h'
    cases h'
    exact hsamples

theorem Samples.length {b b' : Replay} {batchSize : Nat} {batch : List Transition}
    (h : b.Samples batchSize batch b') : batch.length = min batchSize b.length := by
  obtain ⟨positions, hchosen, hentries⟩ := h.positions
  have hlength := congrArg List.length hentries
  rwa [List.length_map, List.length_map, hchosen.size] at hlength

/-! ## The ledger -/

/-- A use of a buffer, with the random numbers it draws on. -/
inductive Use where
  | push (e : Episode) (r : Rng)
  | sample (batchSize : Nat) (r : Rng)

/-- A buffer, and what became of the transitions that were pushed. -/
structure Ledger where
  buffer : Replay
  offered : List Transition := []
  evicted : List Transition := []
  /-- What samples took out. -/
  drained : List Transition := []
  /-- What samples answered. -/
  returned : List Transition := []

namespace Ledger

/-- A sample that is refused leaves everything as it was. -/
def use (l : Ledger) : Use → Ledger
  | .push e r =>
    { l with
      buffer := (l.buffer.push e r).1
      offered := l.offered ++ l.buffer.offered e
      evicted := l.evicted ++ l.buffer.evicted e r }
  | .sample batchSize r =>
    match l.buffer.sample batchSize r with
    | .error _ => l
    | .ok (batch, buffer, _) =>
      { l with
        buffer
        drained := l.drained ++ match l.buffer.policy with
          | .retain => []
          | .drain => batch
        returned := l.returned ++ batch }

def run (l : Ledger) (uses : List Use) : Ledger := uses.foldl use l

/-- Everything that was offered is there, or was evicted or drained; a buffer that drains answers
nothing without taking it out. -/
structure Balanced (capacity : Nat) (policy : SamplingPolicy) (l : Ledger) : Prop where
  sized : l.buffer.capacity = capacity
  ruled : l.buffer.policy = policy
  fits : l.buffer.length ≤ capacity
  conserved : l.offered.Perm (l.buffer.entries ++ l.evicted ++ l.drained)
  once : policy = .drain → l.returned = l.drained

variable {capacity : Nat} {policy : SamplingPolicy} {l : Ledger}

theorem Balanced.push (h : Balanced capacity policy l) (e : Episode) (r : Rng) :
    Balanced capacity policy (l.use (.push e r)) := by
  have hfits : l.buffer.length ≤ l.buffer.capacity := by rw [h.sized]; exact h.fits
  obtain ⟨kept, hpush, hkept⟩ := (pushes hfits e r).placed
  have hlength := length_push_le l.buffer hfits e r
  rw [h.sized] at hlength
  refine ⟨?_, ?_, hlength, ?_, h.once⟩
  · exact (capacity_push _ e r).trans h.sized
  · simp only [use, hpush]
    exact h.ruled
  · simp only [use, hpush]
    -- counting occurrences, because six rows have to be brought into another order
    classical
    rw [List.perm_iff_count]
    intro x
    have hall := h.conserved.count_eq x
    have hsplit := hkept.count_eq x
    simp only [List.count_append] at hall hsplit ⊢
    omega

theorem Balanced.sample (h : Balanced capacity policy l) (batchSize : Nat) (r : Rng) :
    Balanced capacity policy (l.use (.sample batchSize r)) := by
  have hs := samples l.buffer batchSize r
  split at hs
  · simp only [use, hs]
    exact h
  · obtain ⟨batch, b', r', hok, hs⟩ := hs
    simp only [use, hok]
    cases hp : l.buffer.policy with
    | retain =>
      obtain rfl := hs.retained hp
      refine ⟨h.sized, h.ruled, h.fits, ?_, fun hdrain => ?_⟩
      · rw [List.append_nil]
        exact h.conserved
      · rw [← h.ruled, hp] at hdrain
        cases hdrain
    | drain =>
      obtain ⟨entries, rfl, hkept⟩ := hs.drained hp
      refine ⟨h.sized, h.ruled, ?_, ?_, fun hdrain => by rw [h.once hdrain]⟩
      · have hlength := hkept.length_eq
        have hfits := h.fits
        rw [List.length_append] at hlength
        simp only [length] at hfits ⊢
        omega
      · classical
        rw [List.perm_iff_count]
        intro x
        have hall := h.conserved.count_eq x
        have hsplit := hkept.count_eq x
        simp only [List.count_append] at hall hsplit ⊢
        omega

theorem Balanced.use (h : Balanced capacity policy l) (u : Use) :
    Balanced capacity policy (l.use u) := by
  cases u with
  | push e r => exact h.push e r
  | sample batchSize r => exact h.sample batchSize r

theorem Balanced.run (h : Balanced capacity policy l) (uses : List Use) :
    Balanced capacity policy (l.run uses) := by
  induction uses generalizing l with
  | nil => exact h
  | cons u rest ih => exact ih (h.use u)

theorem balanced_new (capacity : Nat) (policy : SamplingPolicy) :
    Balanced capacity policy ⟨new capacity policy, [], [], [], []⟩ :=
  ⟨rfl, rfl, Nat.zero_le _, .refl _, fun _ => rfl⟩

end Ledger

/-- However a buffer was used since it was empty: what was offered to it is in it, or was evicted,
or was drained, and nothing is overfull; a buffer that drains answered nothing twice that was
offered once. And the next use, whichever it is, does what it should. -/
theorem uses_balance (capacity : Nat) (policy : SamplingPolicy) (uses : List Use) :
    let l := Ledger.run ⟨new capacity policy, [], [], [], []⟩ uses
    l.offered.Perm (l.buffer.entries ++ l.evicted ++ l.drained) ∧
    l.buffer.length ≤ capacity ∧
    (policy = .drain → l.returned.Subperm l.offered) ∧
    l.buffer.capacity = capacity ∧ l.buffer.policy = policy ∧
    (∀ e r, l.buffer.Pushes e r) ∧
    ∀ batchSize r, if capacity ≤ batchSize then
        l.buffer.sample batchSize r = .error (.batchTooLarge batchSize capacity) ∧
          l.use (.sample batchSize r) = l
      else ∃ batch b' r', l.buffer.sample batchSize r = .ok (batch, b', r') ∧
        l.buffer.Samples batchSize batch b' := by
  intro l
  have h : l.Balanced capacity policy := (Ledger.balanced_new capacity policy).run uses
  have hfits : l.buffer.length ≤ l.buffer.capacity := by rw [h.sized]; exact h.fits
  refine ⟨h.conserved, h.fits, fun hdrain => ?_, h.sized, h.ruled, pushes hfits, ?_⟩
  · rw [h.once hdrain]
    exact (List.sublist_append_right _ _).subperm.trans h.conserved.symm.subperm
  · intro batchSize r
    have hs := samples l.buffer batchSize r
    rw [h.sized] at hs
    split
    · rename_i hlarge
      rw [if_pos hlarge] at hs
      exact ⟨hs, by simp only [Ledger.use, hs]⟩
    · rename_i hsmall
      rw [if_neg hsmall] at hs
      exact hs

end Replay

end PassTuner
