import Mathlib
import PassTuner.Proofs.Cache.Layout
import PassTuner.Proofs.Disk.Checking

/-!
# Checking a site

Whether everything on a disk is where a site says can be computed, and so can whether names are
short enough.
-/

namespace PassTuner

namespace Site

variable {s : Site} {d : Disk}

/-- Whether everything is where the site says and its directory holds no further one. -/
def isOn (s : Site) (d : Disk) : Bool :=
  d.hasDirectory d.home &&
    (d.nodes.map (·.1)).all (fun p =>
      d.hasDirectory p.tail && !(d.hasDirectory p && p.tail == s.place)) &&
    d.entersAt s.directory s.place && d.leadsTo s.source s.origin &&
    d.leadsTo s.manifestPath s.manifestPlace && d.freeName s.directory ".obj" s.stem == s.scratch

theorem on_of_isOn (h : s.isOn d) : s.On d := by
  simp only [isOn, Bool.and_eq_true, List.all_eq_true, Bool.not_eq_true', Bool.and_eq_false_iff,
    beq_eq_false_iff_ne, beq_iff_eq, Disk.hasDirectory_iff] at h
  obtain ⟨⟨⟨⟨⟨home, nodes⟩, directory⟩, source⟩, manifest⟩, scratch⟩ := h
  have tree : d.IsTree := by
    refine ⟨fun p node hp => ?_, home⟩
    by_cases hroot : p = []
    · rw [hroot]
      rfl
    · exact (nodes p (Disk.mem_places hroot hp)).1
  have flat (name : String) : d.get? (name :: s.place) ≠ some .directory := by
    intro hdirectory
    rcases (nodes _ (Disk.mem_places (List.cons_ne_nil _ _) hdirectory)).2 with hnone | hne
    · rw [Disk.hasDirectory_iff.2 hdirectory] at hnone
      cases hnone
    · exact hne rfl
  have leads := Disk.leads_of_leadsTo source
  refine ⟨⟨tree, Disk.locate_of_entersAt directory, leads, Disk.leads_of_leadsTo manifest,
    fun v => ?_, fun v => flat _⟩, scratch⟩
  unfold codePlace
  split
  · exact flat _
  · exact leads.apart

instance (directory name : String) : Decidable (Short directory name) :=
  decidable_of_iff _ short_iff.symm

instance (s : Site) (v : Variant) : Decidable (s.Nameable v) :=
  decidable_of_iff ((v.irName? s.stem).all (fun name => decide (Short s.directory name)) ∧
    Short s.directory (v.executableName s.stem)) (by
      constructor
      · rintro ⟨hcode, hexecutable⟩
        refine ⟨fun name hname => ?_, hexecutable⟩
        rw [hname] at hcode
        exact of_decide_eq_true hcode
      · rintro ⟨hcode, hexecutable⟩
        refine ⟨?_, hexecutable⟩
        cases hname : v.irName? s.stem with
        | none => rfl
        | some name => exact decide_eq_true (hcode name hname))

instance (s : Site) (v : Variant) : Decidable (s.Fits v) :=
  decidable_of_iff (s.Nameable v ∧ Short s.directory s.scratch ∧ Short s.scratchPath s!"{s.stem}.o")
    ⟨fun ⟨hname, hscratch, hobject⟩ => ⟨hname, hscratch, hobject⟩,
      fun ⟨hname, hscratch, hobject⟩ => ⟨hname, hscratch, hobject⟩⟩

end Site

end PassTuner
