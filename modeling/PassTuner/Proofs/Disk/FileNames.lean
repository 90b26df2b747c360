import PassTuner.Proofs.Disk.Paths

/-!
# The names of files

The name that the text of a path ends in is the name of the file that the path leads to, and is made
up of the stem and the extension.
-/

namespace PassTuner

namespace Path

variable {path name stem extension : String}

theorem mem_pieces {chars piece : List Char} (h : piece ∈ pieces chars) :
    '/' ∉ piece ∧ ∀ c ∈ piece, c ∈ chars := by
  induction chars generalizing piece with
  | nil =>
    rw [pieces, List.mem_singleton] at h
    simp [h]
  | cons c chars ih =>
    rw [pieces] at h
    split at h
    · rcases List.mem_cons.1 h with rfl | h
      · simp
      · exact ⟨(ih h).1, fun c hc => List.mem_cons_of_mem _ ((ih h).2 c hc)⟩
    · rename_i hslash
      split at h
      · rename_i hnil
        rw [List.mem_singleton] at h
        subst h
        simp [Ne.symm hslash]
      · rename_i first more heq
        rw [heq] at ih
        rcases List.mem_cons.1 h with rfl | h
        · have hfirst := ih (List.mem_cons_self ..)
          refine ⟨by simp [Ne.symm hslash, hfirst.1], fun d hd => ?_⟩
          rcases List.mem_cons.1 hd with rfl | hd
          · exact List.mem_cons_self ..
          · exact List.mem_cons_of_mem _ (hfirst.2 d hd)
        · have hmore := ih (List.mem_cons_of_mem _ h)
          exact ⟨hmore.1, fun d hd => List.mem_cons_of_mem _ (hmore.2 d hd)⟩

theorem mem_names (h : name ∈ names path) :
    '/' ∉ name.toList ∧ ∀ c ∈ name.toList, c ∈ path.toList := by
  obtain ⟨piece, hpiece, rfl⟩ := List.mem_map.1 h
  simpa using mem_pieces (List.mem_filter.1 hpiece).1

/-- What stands before the last dot of a name, and what behind. -/
theorem eq_append_dot {chars front : List Char}
    (hfront : chars.reverse.takeWhile (· ≠ '.') = front) (h : front.length ≠ chars.length) :
    chars = chars.take (chars.length - front.length - 1) ++ '.' :: front.reverse := by
  have hsplit := List.takeWhile_append_dropWhile (p := (· ≠ '.')) (l := chars.reverse)
  have hdot := List.head?_dropWhile_not (· ≠ '.') chars.reverse
  generalize chars.reverse.dropWhile (· ≠ '.') = back at hsplit hdot
  rw [hfront] at hsplit
  cases back with
  | nil =>
    rw [List.append_nil] at hsplit
    rw [hsplit, List.length_reverse] at h
    exact absurd rfl h
  | cons c back =>
    have hc : c = '.' := by simpa using hdot
    have hrev : chars = back.reverse ++ '.' :: front.reverse := by
      have hr := congrArg List.reverse hsplit
      rw [hc] at hr
      simpa using hr.symm
    have hlength : chars.length - front.length - 1 = back.reverse.length := by
      rw [hrev]
      simp only [List.length_append, List.length_reverse, List.length_cons]
      omega
    rw [hlength, hrev, List.take_left]

theorem cutName_eq (h : cutName name = (stem, some extension)) :
    name.toList = stem.toList ++ '.' :: extension.toList ∧ stem ≠ "" := by
  simp only [cutName, List.length_reverse] at h
  split at h
  · cases h
  · rename_i hcut
    rw [not_or] at hcut
    cases h
    rw [String.toList_ofList, String.toList_ofList]
    refine ⟨eq_append_dot rfl hcut.1, fun hempty => hcut.2 ?_⟩
    simpa using congrArg String.toList hempty

end Path

namespace Disk

variable {d : Disk} {path name stem extension : String} {p q : Place}

/-- The last name of a path to a file is the name of the file. -/
theorem follow_last {names : List String} (h : d.follow q (names ++ [name]) = .ok (d.target p))
    (apart : d.get? p ≠ some .directory) :
    name ≠ "." ∧ name ≠ ".." ∧ ∃ place, p = name :: place := by
  have directory (r : Place) (hr : Target.present r .directory = d.target p) : False := by
    unfold target at hr
    split at hr
    · rename_i node hp
      cases hr
      exact apart hp
    · cases hr
  induction names generalizing q with
  | nil =>
    rw [List.nil_append, follow_cons] at h
    split at h
    · exact (directory _ (Except.ok.inj h)).elim
    rename_i hhere
    split at h
    · exact (directory _ (Except.ok.inj h)).elim
    rename_i hup
    split at h
    · cases h
    refine ⟨hhere, hup, q, ?_⟩
    cases hg : d.get? (name :: q) with
    | none =>
      simp only [hg, ← target_of_none hg] at h
      exact (target_inj (Except.ok.inj h)).symm
    | some node =>
      cases node with
      | file content =>
        simp only [hg, ← target_of_some hg] at h
        exact (target_inj (Except.ok.inj h)).symm
      | directory =>
        simp only [hg] at h
        exact (directory _ (Except.ok.inj h)).elim
  | cons other names ih =>
    rw [List.cons_append, follow_cons] at h
    split at h
    · exact ih h
    split at h
    · exact ih h
    split at h
    · cases h
    cases hg : d.get? (other :: q) with
    | none => cases names <;> simp [hg] at h
    | some node =>
      cases node with
      | file content => cases names <;> simp [hg] at h
      | directory =>
        simp only [hg] at h
        exact ih h

theorem Leads.fileName (h : d.Leads path p) (hname : Path.fileName? path = some name) :
    name ∈ Path.names path ∧ ∃ place, p = name :: place := by
  have hfollow := follow_of_locate h.located
  rcases List.eq_nil_or_concat (Path.names path) with hnil | ⟨front, last, hnames⟩
  · simp [Path.fileName?, hnil] at hname
  · rw [List.concat_eq_append] at hnames
    rw [hnames] at hfollow
    obtain ⟨here, up, hp⟩ := follow_last hfollow h.apart
    have hlast : Path.fileName? path = some last := by
      unfold Path.fileName?
      rw [hnames]
      cases front with
      | nil => split <;> simp [here, up]
      | cons first front => split <;> simp [here, up, List.getLast?_cons]
    rw [hlast] at hname
    cases hname
    rw [hnames]
    exact ⟨by simp, hp⟩

end Disk

end PassTuner
