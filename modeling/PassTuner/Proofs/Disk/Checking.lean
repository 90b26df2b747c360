import Mathlib
import PassTuner.Proofs.Disk.Paths

/-!
# Checking where paths lead

Disks can be compared, and where a path leads can be computed.
-/

namespace PassTuner

deriving instance DecidableEq for Node, Disk

namespace Disk

variable {d : Disk} {path : String} {p : Place}

def hasDirectory (d : Disk) (p : Place) : Bool :=
  match d.get? p with
  | some .directory => true
  | _ => false

theorem hasDirectory_iff : d.hasDirectory p ↔ d.get? p = some .directory := by
  unfold hasDirectory
  split <;> simp_all

/-- Whether a path leads to a place where a file is or can be made. -/
def leadsTo (d : Disk) (path : String) (p : Place) : Bool :=
  !Path.endsInSlash path &&
    match d.locate path with
    | .ok (.present q (.file _)) => q == p
    | .ok (.vacant q) => q == p
    | _ => false

theorem leads_of_leadsTo (h : d.leadsTo path p) : d.Leads path p := by
  unfold leadsTo at h
  simp only [Bool.and_eq_true, Bool.not_eq_true'] at h
  obtain ⟨unslashed, h⟩ := h
  cases hl : d.locate path with
  | error e => simp [hl] at h
  | ok t =>
    rcases get?_of_follow (follow_of_locate hl) with ⟨q, rfl⟩ | ⟨q, rfl, apart⟩
    · simp [hl] at h
    · have hq : q = p := by
        cases hg : d.get? q with
        | none => simpa [hl, target_of_none hg] using h
        | some node =>
          cases node with
          | directory => exact absurd hg apart
          | file content => simpa [hl, target_of_some hg] using h
      rw [hq] at hl apart
      exact ⟨hl, apart, unslashed⟩

/-- Whether a path leads to a directory. -/
def entersAt (d : Disk) (path : String) (p : Place) : Bool :=
  match d.locate path with
  | .ok (.present q .directory) => q == p
  | _ => false

theorem locate_of_entersAt (h : d.entersAt path p) :
    d.locate path = .ok (.present p .directory) := by
  unfold entersAt at h
  split at h
  · rename_i q hl
    rw [hl, eq_of_beq h]
  · cases h

end Disk

end PassTuner
