import PassTuner.Proofs.Cache.Layout

/-!
# Scratch directories on a site

The name for a scratch directory is free, so the directory can be made, unless its name is too long.
While it is there the paths of the site lead where they did before, and the path of the object leads
into it.
-/

namespace PassTuner.Site

variable {s : Site} {d d' : Disk} {p : Place}

/-- The site with a scratch directory in it. -/
structure Scratched (s : Site) (d : Disk) : Prop extends s.Laid d where
  scratch : d.locate s.scratchPath = .ok (.present s.scratchPlace .directory)
  outside : ∀ p, s.Owns p → ¬s.scratchPlace <:+ p

theorem On.vacant_scratch (hs : s.Clear) (h : s.On d) (hshort : Short s.directory s.scratch) :
    d.get? s.scratchPlace = none := by
  obtain ⟨n, hn, hfree, _⟩ := Disk.freeName_eq d s.directory plain_numbered s.stem
  have hscratch : Disk.numbered ".obj" n = s.scratch := hn.symm.trans h.scratch
  simp only [Disk.isFree, hscratch, Bool.and_eq_true, Disk.isVacant,
    Disk.locate_join h.directory hs.plain_scratch, if_neg (short_iff.1 hshort)] at hfree
  have hvacant := hfree.2
  unfold Disk.target at hvacant
  cases hg : d.get? s.scratchPlace with
  | none => rfl
  | some node =>
    have hg' : d.get? (s.scratch :: s.place) = some node := hg
    simp [hg'] at hvacant

theorem On.makeDirectory_short (hs : s.Clear) (h : s.On d) (hshort : Short s.directory s.scratch) :
    d.makeDirectory s.scratchPath = .ok (d.put s.scratchPlace .directory) := by
  have hl := Disk.locate_join h.directory hs.plain_scratch
  rw [if_neg (short_iff.1 hshort)] at hl
  have ht : d.target (s.scratch :: s.place) = .vacant s.scratchPlace :=
    Disk.target_of_none (h.vacant_scratch hs hshort)
  simp [Disk.makeDirectory, scratchPath, hl, ht]

theorem On.makeDirectory_long (hs : s.Clear) (h : s.On d) (hlong : ¬Short s.directory s.scratch) :
    d.makeDirectory s.scratchPath = .error .nameTooLong := by
  have hl := Disk.locate_join h.directory hs.plain_scratch
  rw [if_pos (by rw [short_iff] at hlong; exact not_not.1 hlong)] at hl
  simp [Disk.makeDirectory, scratchPath, hl]

theorem Clear.owns_ne_scratchPlace (hs : s.Clear) (hp : s.Owns p) : p ≠ s.scratchPlace := by
  obtain ⟨n, hn, hstem⟩ := hs.scratch
  rw [scratchPlace, hn]
  exact hs.owns_ne_numbered hp (by rwa [← hn])

theorem On.scratched (hs : s.Clear) (h : s.On d) (hshort : Short s.directory s.scratch) :
    s.Scratched (d.put s.scratchPlace .directory) := by
  have hne : s.scratchPlace ≠ [] := List.cons_ne_nil _ _
  have home : (d.put s.scratchPlace .directory).home = d.home := rfl
  have kept (r : Place) (hr : d.get? r = some .directory) :
      (d.put s.scratchPlace .directory).get? r = some .directory := by
    rw [Disk.get?_put_other d, hr]
    rintro rfl
    rw [h.vacant_scratch hs hshort] at hr
    cases hr
  have apart (p : Place) (hp : s.Owns p) :
      (d.put s.scratchPlace .directory).get? p ≠ some .directory := by
    rw [Disk.get?_put_other d (hs.owns_ne_scratchPlace hp)]
    exact h.apart hp
  have outside (p : Place) (hp : s.Owns p) : ¬s.scratchPlace <:+ p := by
    rintro ⟨names, rfl⟩
    cases names with
    | nil => exact hs.owns_ne_scratchPlace hp rfl
    | cons name names =>
      have hparent := h.parent hp
      have hvacant := h.vacant_scratch hs hshort
      rw [List.cons_append, List.tail_cons] at hparent
      by_cases hn : names ++ s.scratchPlace = s.scratchPlace
      · rw [hn, hvacant] at hparent
        cases hparent
      · rw [h.tree.inside (by simp [hvacant]) ⟨names, rfl⟩ hn] at hparent
        cases hparent
  have hd := Disk.locate_directory home kept h.directory
  refine ⟨⟨Disk.isTree_put_directory h.tree hne h.place, hd,
    h.source.of_directories home kept (apart _ (.code .base)),
    h.manifest.of_directories home kept (apart _ .manifest),
    fun v => apart _ (.code v), fun v => apart _ (.executable v)⟩, ?_, outside⟩
  have hl := Disk.locate_join hd hs.plain_scratch
  rw [if_neg (short_iff.1 hshort)] at hl
  rw [scratchPath, hl]
  exact congrArg Except.ok (Disk.target_of_some (Disk.get?_put_same d hne .directory))

theorem Scratched.scratch_directory (h : s.Scratched d) : d.get? s.scratchPlace = some .directory :=
  h.tree.get?_of_locate h.scratch

theorem Scratched.ne_objectPlace (h : s.Scratched d) (hp : s.Owns p) : p ≠ s.objectPlace := by
  rintro rfl
  exact h.outside _ hp (List.suffix_cons _ _)

theorem Scratched.eq_objectPlace (hs : s.Clear) (h : s.Scratched d)
    (hl : d.Leads s.objectPath p) : p = s.objectPlace :=
  hl.eq_of_join h.scratch (plain_object hs.stem)

theorem Scratched.leads_object (hs : s.Clear) (h : s.Scratched d)
    (hshort : Short s.scratchPath s!"{s.stem}.o")
    (apart : d.get? s.objectPlace ≠ some .directory) : d.Leads s.objectPath s.objectPlace :=
  Disk.leads_join h.scratch (plain_object hs.stem) hshort.shortPath hshort.shortName apart

theorem Scratched.of_changedOnly (h : s.Scratched d) {P : Place → Prop}
    (hc : Disk.ChangedOnly P d d') (hP : ∀ p, P p → d.get? p.tail = some .directory) :
    s.Scratched d' :=
  ⟨h.toLaid.of_changedOnly hc hP,
    Disk.locate_directory hc.home (fun r hr => (hc.directories r).2 hr) h.scratch, h.outside⟩

/-- Taking the scratch directory away. -/
theorem Scratched.remove_scratch (h : s.Scratched d) :
    d.remove s.scratchPath = d.erase s.scratchPlace := by
  simp [Disk.remove, h.scratch]

end PassTuner.Site
