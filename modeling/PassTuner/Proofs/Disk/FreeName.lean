import Mathlib.Data.List.Perm.Subperm
import Mathlib.Data.List.Nodup
import PassTuner.Proofs.Disk.Changes

/-!
# Free names

There are more candidates for a name than there are files, so one of them is free, and the first of
them is the name. As long as no candidate comes or goes, the name stays the same.
-/

namespace PassTuner.Disk

variable {d d' : Disk} {directory start kept : String} {place : Place}

/-- The candidates for a name, by number. -/
def numbered (start : String) (n : Nat) : String := s!"{start}{n}"

theorem numbered_injective (start : String) : Function.Injective (numbered start) := by
  intro n m h
  have hl := congrArg String.toList h
  simp only [numbered, toString, String.toList_append, List.append_cancel_left_eq,
    Nat.toList_repr] at hl
  rw [← Nat.ofDigitChars_ten_toDigits (n := n), hl, Nat.ofDigitChars_ten_toDigits]

/-- Whether nothing is at the end of a path. -/
def isVacant (d : Disk) (path : String) : Bool :=
  match d.locate path with
  | .ok (.present _ _) => false
  | _ => true

/-- Whether a candidate may be taken. -/
def isFree (d : Disk) (directory start kept : String) (n : Nat) : Bool :=
  numbered start n != kept && d.isVacant (Path.join directory (numbered start n))

theorem freeName_eq_find? (d : Disk) (directory start kept : String) :
    d.freeName directory start kept =
      (((List.range (d.nodes.length + 2)).find? (d.isFree directory start kept)).map
        (numbered start)).getD start := by
  have hnodup : ((List.range (d.nodes.length + 2)).map (numbered start)).Nodup :=
    List.nodup_range.map (numbered_injective start)
  change (((List.range (d.nodes.length + 2)).map (numbered start)).erase kept |>.find? fun name =>
    d.isVacant (Path.join directory name)).getD start = _
  rw [hnodup.erase_eq_filter, List.find?_filter, List.find?_map]
  congr 3
  funext n
  by_cases hk : numbered start n = kept <;> simp [isFree, hk]

/-- A name is only taken in a directory that there is. -/
theorem isVacant_eq_false {name : String} (hn : Path.Plain name)
    (h : d.isVacant (Path.join directory name) = false) :
    ∃ place, d.follow (d.start directory) (Path.names directory) = .ok (.present place .directory) ∧
      ∃ node, d.get? (name :: place) = some node := by
  unfold isVacant at h
  split at h
  · rename_i p node hlocated
    have hfollow := follow_of_locate hlocated
    rw [start, Path.isAbsolute_join hn, Path.names_join hn] at hfollow
    obtain ⟨place, hplace⟩ := of_follow_append hfollow
    refine ⟨place, hplace, ?_⟩
    rw [follow_append hplace, follow_plain hn] at hfollow
    split at hfollow
    · cases hfollow
    · unfold target at hfollow
      split at hfollow
      · rename_i node' hg
        exact ⟨node', hg⟩
      · cases hfollow
  · cases h

theorem mem_of_lookup {nodes : List (Place × Node)} {p : Place} {node : Node}
    (h : nodes.lookup p = some node) : p ∈ nodes.map (·.1) := by
  induction nodes with
  | nil => cases h
  | cons entry rest ih =>
    rw [List.lookup_cons] at h
    split at h
    · rename_i heq
      simp [eq_of_beq heq]
    · simp [ih h]

theorem mem_places {p : Place} {node : Node} (hp : p ≠ []) (h : d.get? p = some node) :
    p ∈ d.nodes.map (·.1) := by
  rw [get?, if_neg hp] at h
  exact mem_of_lookup h

/-- Not every candidate can be taken already. -/
theorem exists_isFree (d : Disk) (directory : String) (hn : ∀ n, Path.Plain (numbered start n))
    (kept : String) : ∃ n < d.nodes.length + 2, d.isFree directory start kept n := by
  by_contra hnone
  push Not at hnone
  let names := ((List.range (d.nodes.length + 2)).map (numbered start)).erase kept
  have hnodup : ((List.range (d.nodes.length + 2)).map (numbered start)).Nodup :=
    List.nodup_range.map (numbered_injective start)
  have hlength : d.nodes.length + 1 ≤ names.length := by
    have h : names.length = _ := List.length_erase
    rw [List.length_map, List.length_range] at h
    split at h <;> omega
  have htaken (name : String) (hname : name ∈ names) : ∃ place,
      d.follow (d.start directory) (Path.names directory) = .ok (.present place .directory) ∧
        ∃ node, d.get? (name :: place) = some node := by
    obtain ⟨hne, hmem⟩ := hnodup.mem_erase_iff.1 hname
    obtain ⟨n, hlt, rfl⟩ := List.mem_map.1 hmem
    have hnot := hnone n (List.mem_range.1 hlt)
    simp only [isFree, bne_iff_ne.2 hne, Bool.true_and, Bool.not_eq_true] at hnot
    exact isVacant_eq_false (hn n) hnot
  obtain ⟨first, hfirst⟩ := List.exists_mem_of_length_pos (show 0 < names.length by omega)
  obtain ⟨place, hplace, _⟩ := htaken first hfirst
  have hsubset : names.map (· :: place) ⊆ d.nodes.map (·.1) := by
    intro p hp
    obtain ⟨name, hname, rfl⟩ := List.mem_map.1 hp
    obtain ⟨place', hplace', node, hg⟩ := htaken name hname
    rw [hplace] at hplace'
    cases hplace'
    exact mem_places (List.cons_ne_nil _ _) hg
  have hdistinct : (names.map (· :: place)).Nodup :=
    (hnodup.erase kept).map fun a b h => List.head_eq_of_cons_eq h
  have hle := (hdistinct.subperm hsubset).length_le
  simp only [List.length_map] at hle
  omega

/-- The name is the first candidate that is free. -/
theorem freeName_eq (d : Disk) (directory : String) (hn : ∀ n, Path.Plain (numbered start n))
    (kept : String) :
    ∃ n, d.freeName directory start kept = numbered start n ∧ d.isFree directory start kept n ∧
      ∀ m < n, d.isFree directory start kept m = false := by
  obtain ⟨k, hk, hfree⟩ := exists_isFree d directory hn kept
  rw [freeName_eq_find?]
  cases hfind : (List.range (d.nodes.length + 2)).find? (d.isFree directory start kept) with
  | none =>
    have hnot := List.find?_range_eq_none.1 hfind k hk
    simp [hfree] at hnot
  | some n =>
    obtain ⟨hn, _, hfirst⟩ := List.find?_range_eq_some.1 hfind
    exact ⟨n, rfl, hn, fun m hm => by simpa using hfirst m hm⟩

/-- Where the same candidates are free, it is the same name. -/
theorem freeName_eq_of_isFree (hn : ∀ n, Path.Plain (numbered start n))
    (h : ∀ n, d'.isFree directory start kept n = d.isFree directory start kept n) :
    d'.freeName directory start kept = d.freeName directory start kept := by
  obtain ⟨n, heq, hthis, hfirst⟩ := freeName_eq d directory hn kept
  obtain ⟨n', heq', hthis', hfirst'⟩ := freeName_eq d' directory hn kept
  have hnn : n' = n := by
    rcases Nat.lt_trichotomy n' n with hlt | rfl | hgt
    · have hbad := hfirst n' hlt
      rw [← h, hthis'] at hbad
      cases hbad
    · rfl
    · have hbad := hfirst' n hgt
      rw [h, hthis] at hbad
      cases hbad
  rw [heq, heq', hnn]

theorem freeName_congr (hd : d.locate directory = .ok (.present place .directory))
    (hd' : d'.locate directory = .ok (.present place .directory))
    (hn : ∀ n, Path.Plain (numbered start n))
    (h : ∀ n, numbered start n ≠ kept →
      d'.get? (numbered start n :: place) = d.get? (numbered start n :: place)) :
    d'.freeName directory start kept = d.freeName directory start kept := by
  refine freeName_eq_of_isFree hn fun n => ?_
  by_cases hne : numbered start n = kept
  · simp [isFree, hne]
  · simp only [isFree, isVacant, locate_join hd (hn n), locate_join hd' (hn n), target, h n hne]

end PassTuner.Disk
