import PassTuner.Proofs.Disk.Paths

/-!
# What changes on a disk

`ChangedOnly P` relates two disks that have the same directories and differ in files at places in
`P` at most. A directory that is made, worked in and taken away again leaves no trace on a disk
where everything lies in a directory.
-/

namespace PassTuner.Disk

variable {d d' d'' : Disk} {path : String} {p q : Place} {P Q : Place → Prop}

/-- Whatever is there lies in a directory, and relative paths start from one. -/
structure IsTree (d : Disk) : Prop where
  parent : ∀ p node, d.get? p = some node → d.get? p.tail = some .directory
  home : d.get? d.home = some .directory

/-- The disks have the same directories, and differ in files at some places at most. -/
structure ChangedOnly (P : Place → Prop) (d d' : Disk) : Prop where
  home : d'.home = d.home
  same : ∀ p, ¬P p → d'.get? p = d.get? p
  directories : ∀ p, d'.get? p = some .directory ↔ d.get? p = some .directory

theorem ChangedOnly.refl (P : Place → Prop) (d : Disk) : ChangedOnly P d d :=
  ⟨rfl, fun _ _ => rfl, fun _ => Iff.rfl⟩

theorem ChangedOnly.trans (h : ChangedOnly P d d') (h' : ChangedOnly P d' d'') :
    ChangedOnly P d d'' where
  home := h'.home.trans h.home
  same p hp := (h'.same p hp).trans (h.same p hp)
  directories p := (h'.directories p).trans (h.directories p)

theorem ChangedOnly.mono (h : ChangedOnly P d d') (hPQ : ∀ p, P p → Q p) : ChangedOnly Q d d' where
  home := h.home
  same p hp := h.same p fun hP => hp (hPQ p hP)
  directories := h.directories

theorem ChangedOnly.leads (h : ChangedOnly P d d') (hl : d.Leads path p) : d'.Leads path p :=
  hl.of_directories h.home (fun r hr => (h.directories r).2 hr)
    fun hp => hl.apart ((h.directories p).1 hp)

theorem ChangedOnly.isTree (h : ChangedOnly P d d') (ht : d.IsTree)
    (hP : ∀ p, P p → d.get? p.tail = some .directory) : d'.IsTree := by
  constructor
  · intro p node hp
    rw [h.directories]
    by_cases hPp : P p
    · exact hP p hPp
    · rw [h.same p hPp] at hp
      exact ht.parent p node hp
  · rw [h.home, h.directories]
    exact ht.home

theorem get?_root (d : Disk) : d.get? [] = some .directory := rfl

theorem changedOnly_put (hp : d.get? p ≠ some .directory) (content : ByteArray) :
    ChangedOnly (· = p) d (d.put p (.file content)) := by
  have hne : p ≠ [] := by
    rintro rfl
    exact hp rfl
  refine ⟨rfl, fun q hq => get?_put_other d hq _, fun q => ?_⟩
  by_cases hq : q = p
  · subst hq
    simp [get?_put_same d hne, hp]
  · rw [get?_put_other d hq]

theorem IsTree.inside (ht : d.IsTree) (hp : d.get? p ≠ some .directory) (hq : p <:+ q)
    (hne : q ≠ p) : d.get? q = none := by
  obtain ⟨names, rfl⟩ := hq
  induction names with
  | nil => exact absurd rfl hne
  | cons name names ih =>
    cases hg : d.get? (name :: names ++ p) with
    | none => rfl
    | some node =>
      have hparent := ht.parent _ _ hg
      rw [List.cons_append, List.tail_cons] at hparent
      by_cases hn : names ++ p = p
      · rw [hn] at hparent
        exact absurd hparent hp
      · rw [ih hn] at hparent
        cases hparent

theorem changedOnly_erase (ht : d.IsTree) (hp : d.get? p ≠ some .directory) :
    ChangedOnly (· = p) d (d.erase p) := by
  have hne : p ≠ [] := by
    rintro rfl
    exact hp rfl
  have same (q : Place) (hq : q ≠ p) : (d.erase p).get? q = d.get? q := by
    by_cases hin : p <:+ q
    · have hroot : q ≠ [] := by
        rintro rfl
        exact hne (List.suffix_nil.1 hin)
      rw [get?_erase_inside d hin hroot, ht.inside hp hin hq]
    · exact get?_erase_other d hin
  refine ⟨rfl, same, fun q => ?_⟩
  by_cases hq : q = p
  · subst hq
    simp [get?_erase_inside d (List.suffix_refl q) hne, hp]
  · rw [same q hq]

/-- Removing a path that leads to a file changes that file at most. -/
theorem Leads.changedOnly_remove (h : d.Leads path p) (ht : d.IsTree) :
    ChangedOnly (· = p) d (d.remove path) := by
  cases hp : d.get? p with
  | none =>
    rw [h.remove_of_none hp]
    exact ChangedOnly.refl _ _
  | some node =>
    cases node with
    | directory => exact absurd hp h.apart
    | file content =>
      rw [h.remove_of_file hp]
      exact changedOnly_erase ht h.apart

/-! ## Reading what was written -/

theorem read_of_write {content : ByteArray} (h : d.write path content = .ok d') :
    d'.read path = .ok content := by
  obtain ⟨p, leads, rfl⟩ := leads_of_write h
  exact ((changedOnly_put leads.apart content).leads leads).read_of_file
    (get?_put_same d leads.ne_root _)

theorem readText_of_read {text : String} (h : d.read path = .ok text.toUTF8) :
    d.readText path = .ok text := by
  have valid : String.fromUTF8? text.toUTF8 = some text := by
    unfold String.fromUTF8?
    rw [String.toUTF8_eq_toByteArray, dif_pos text.isValidUTF8]
    rfl
  simp only [readText, h, valid]

/-- A text is read where it was written. -/
theorem readText_of_writeText {text : String} (h : d.writeText path text = .ok d') :
    d'.readText path = .ok text :=
  readText_of_read (read_of_write h)

/-! ## Following paths on a tree -/

/-- A path leads to something that is there, or to a free name in a directory. -/
theorem IsTree.follow (ht : d.IsTree) {names : List String} {t : Target}
    (hq : d.get? q = some .directory) (h : d.follow q names = .ok t) :
    (∃ p node, t = .present p node ∧ d.get? p = some node) ∨
      ∃ p, t = .vacant p ∧ d.get? p.tail = some .directory := by
  induction names generalizing q with
  | nil =>
    cases h
    exact .inl ⟨q, .directory, rfl, hq⟩
  | cons name names ih =>
    rw [follow_cons] at h
    split at h
    · exact ih hq h
    split at h
    · exact ih (ht.parent q _ hq) h
    split at h
    · cases h
    cases hg : d.get? (name :: q) with
    | none =>
      cases names with
      | nil =>
        simp only [hg] at h
        cases h
        exact .inr ⟨name :: q, rfl, hq⟩
      | cons _ _ => simp [hg] at h
    | some node =>
      cases node with
      | directory =>
        simp only [hg] at h
        exact ih hg h
      | file content =>
        cases names with
        | nil =>
          simp only [hg] at h
          cases h
          exact .inl ⟨name :: q, .file content, rfl, hg⟩
        | cons _ _ => simp [hg] at h

theorem IsTree.start (ht : d.IsTree) (path : String) : d.get? (d.start path) = some .directory := by
  unfold Disk.start
  split
  · rfl
  · exact ht.home

theorem IsTree.get?_of_locate (ht : d.IsTree) {node : Node}
    (h : d.locate path = .ok (.present p node)) : d.get? p = some node := by
  rcases ht.follow (ht.start path) (follow_of_locate h) with ⟨p', node', heq, hg⟩ | ⟨p', heq, _⟩
  · cases heq
    exact hg
  · cases heq

theorem Leads.parent (h : d.Leads path p) (ht : d.IsTree) : d.get? p.tail = some .directory := by
  cases hp : d.get? p with
  | some node => exact ht.parent p node hp
  | none =>
    have hfollow := follow_of_locate h.located
    rw [target_of_none hp] at hfollow
    rcases ht.follow (ht.start path) hfollow with ⟨p', node', heq, _⟩ | ⟨p', heq, hparent⟩
    · cases heq
    · cases heq
      exact hparent

theorem follow_directory {names : List String}
    (kept : ∀ r, d.get? r = some .directory → d'.get? r = some .directory)
    (h : d.follow q names = .ok (.present p .directory)) :
    d'.follow q names = .ok (.present p .directory) := by
  induction names generalizing q with
  | nil =>
    cases h
    rfl
  | cons name names ih =>
    rw [follow_cons] at h ⊢
    by_cases hhere : name = "."
    · rw [if_pos hhere] at h ⊢
      exact ih h
    rw [if_neg hhere] at h ⊢
    by_cases hup : name = ".."
    · rw [if_pos hup] at h ⊢
      exact ih h
    rw [if_neg hup] at h ⊢
    by_cases hlong : longestName < name.utf8ByteSize
    · rw [if_pos hlong] at h
      cases h
    rw [if_neg hlong] at h ⊢
    cases hg : d.get? (name :: q) with
    | none => cases names <;> simp [hg] at h
    | some node =>
      cases node with
      | file content => cases names <;> simp [hg] at h
      | directory =>
        simp only [hg] at h
        simp only [kept _ hg]
        exact ih h

/-- Directories stay where they are. -/
theorem locate_directory (home : d'.home = d.home)
    (kept : ∀ r, d.get? r = some .directory → d'.get? r = some .directory)
    (h : d.locate path = .ok (.present p .directory)) :
    d'.locate path = .ok (.present p .directory) := by
  have hfollow := follow_directory kept (follow_of_locate h)
  have hstart : d'.start path = d.start path := by simp only [Disk.start, home]
  rw [locate_of_followable (followable_of_locate h), hstart, hfollow]

theorem makeDirectories_of_directory (h : d.locate path = .ok (.present p .directory)) :
    d.makeDirectories path = .ok d := by
  have hmake : d.makeDirectory path = .error .exists := by simp [makeDirectory, h]
  have hdir : d.isDirectory path := by simp [isDirectory, node?, h]
  have hmissing : d.missing (path.length + 1) path = .ok [] := by
    rw [missing]
    cases Path.parent? path with
    | none => rfl
    | some parent => simp [hmake, hdir]
  simp [makeDirectories, hmissing, makeEach]

/-! ## Scratch directories -/

/-- A new directory is there, and nothing else is new. -/
theorem isTree_put_directory (ht : d.IsTree) (hp : p ≠ [])
    (hparent : d.get? p.tail = some .directory) : (d.put p .directory).IsTree := by
  have kept (q : Place) (hq : d.get? q = some .directory) :
      (d.put p .directory).get? q = some .directory := by
    by_cases h : q = p
    · subst h
      exact get?_put_same d hp _
    · rw [get?_put_other d h, hq]
  constructor
  · intro q node hq
    refine kept _ ?_
    by_cases h : q = p
    · rw [h]
      exact hparent
    · rw [get?_put_other d h] at hq
      exact ht.parent q node hq
  · exact kept _ ht.home

/-- A directory that is made and taken away again takes with it what was put there. -/
theorem changedOnly_scratch (ht : d.IsTree) (hp : d.get? p = none)
    (h : ChangedOnly (fun q => P q ∨ p <:+ q) (d.put p .directory) d') :
    ChangedOnly P d (d'.erase p) := by
  have hne : p ≠ [] := by
    rintro rfl
    cases hp
  have apart : d.get? p ≠ some .directory := by simp [hp]
  have inside (q : Place) (hq : p <:+ q) : (d'.erase p).get? q = none ∧ d.get? q = none := by
    have hroot : q ≠ [] := by
      rintro rfl
      exact hne (List.suffix_nil.1 hq)
    refine ⟨get?_erase_inside d' hq hroot, ?_⟩
    by_cases h : q = p
    · rw [h, hp]
    · exact ht.inside apart hq h
  have outside (q : Place) (hq : ¬p <:+ q) :
      (d'.erase p).get? q = d'.get? q ∧ (d.put p .directory).get? q = d.get? q := by
    refine ⟨get?_erase_other d' hq, get?_put_other d ?_ _⟩
    rintro rfl
    exact hq (List.suffix_refl q)
  refine ⟨h.home, fun q hq => ?_, fun q => ?_⟩
  · by_cases hin : p <:+ q
    · rw [(inside q hin).1, (inside q hin).2]
    · rw [(outside q hin).1, h.same q (by simp [hq, hin]), (outside q hin).2]
  · by_cases hin : p <:+ q
    · rw [(inside q hin).1, (inside q hin).2]
    · rw [(outside q hin).1, h.directories, (outside q hin).2]

end PassTuner.Disk
