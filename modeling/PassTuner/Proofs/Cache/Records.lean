import PassTuner.Proofs.Program.Ensuring

/-!
# What a manifest says

A rule says when the digests of a variant are right, for a source with a given digest and on a given
disk. A manifest follows the rule if all its entries do, and so does the file of a site that holds
such a manifest or none at all: reading it gives a manifest that follows the rule.
-/

namespace PassTuner.Site

variable {s : Site} {m m' : Manifest} {v w : Variant} {d d' : Disk}

/-- When digests are right: the digest of the source, the variant, its digests and the disk. -/
abbrev Rule := String → Variant → Digests → Disk → Prop

variable {R : Rule}

/-- A manifest whose entries follow a rule. -/
structure Follows (R : Rule) (m : Manifest) (d : Disk) : Prop where
  sorted : m.Sorted
  entries : ∀ code digests, m.get? code = some digests →
    ∃ v, v.encode = code ∧ R m.sourceDigest v digests d

/-- There is no file of a manifest, or its entries follow a rule. -/
def Filed (R : Rule) (s : Site) (d : Disk) : Prop :=
  d.get? s.manifestPlace = none ∨
    ∃ m, d.get? s.manifestPlace = some (manifestFile m) ∧ Follows R m d

theorem encode_injective (h : v.encode = w.encode) : v = w := by
  have hdecode := Variant.decode_encode v
  rw [h, Variant.decode_encode] at hdecode
  exact (Except.ok.inj hdecode).symm

theorem follows_empty (R : Rule) (digest : String) (d : Disk) : Follows R (.empty digest) d :=
  ⟨Manifest.sorted_empty digest, fun _ _ h => by cases h⟩

theorem Follows.entry (h : Follows R m d) {digests : Digests}
    (hget : m.get? v.encode = some digests) : R m.sourceDigest v digests d := by
  obtain ⟨w, hw, hR⟩ := h.entries _ _ hget
  rwa [encode_injective hw] at hR

theorem Follows.mono (h : Follows R m d)
    (hR : ∀ v digests, m.get? v.encode = some digests → R m.sourceDigest v digests d →
      R m.sourceDigest v digests d') : Follows R m d' := by
  refine ⟨h.sorted, fun code digests hget => ?_⟩
  obtain ⟨v, rfl, hv⟩ := h.entries code digests hget
  exact ⟨v, rfl, hR v digests hget hv⟩

theorem Follows.enter (h : Follows R m d) {c x : ByteArray}
    (hR : R m.sourceDigest v ⟨Digest.ofBytes c, Digest.ofBytes x⟩ d) :
    Follows R (entered m v c x) d := by
  refine ⟨h.sorted.insert _ _, fun code digests hget => ?_⟩
  by_cases hcode : code = v.encode
  · subst hcode
    rw [entered, Manifest.get?_insert_same] at hget
    exact ⟨v, rfl, Option.some.inj hget ▸ hR⟩
  · rw [entered, Manifest.get?_insert_other _ hcode] at hget
    exact h.entries code digests hget

theorem get?_entered_self (m : Manifest) (v : Variant) (c x : ByteArray) :
    (entered m v c x).get? v.encode = some ⟨Digest.ofBytes c, Digest.ofBytes x⟩ :=
  Manifest.get?_insert_same _ _ _

theorem get?_entered_other (m : Manifest) (h : w ≠ v) (c x : ByteArray) :
    (entered m v c x).get? w.encode = m.get? w.encode :=
  Manifest.get?_insert_other _ (fun heq => h (encode_injective heq)) _

/-! ## Reading the file -/

theorem currentManifest_of_none (hd : s.Laid d) (h : d.get? s.manifestPlace = none)
    (digest : String) : Cache.currentManifest d s.directory digest = .ok (.empty digest) := by
  have hread := hd.manifest.read_of_none h
  rw [manifestPath] at hread
  simp [Cache.currentManifest, Disk.readText, hread]

theorem currentManifest_of_file (hd : s.Laid d)
    (h : d.get? s.manifestPlace = some (manifestFile m)) (hm : m.Sorted) (digest : String) :
    Cache.currentManifest d s.directory digest =
      .ok (if m.sourceDigest = digest then m else .empty digest) := by
  have hread := hd.manifest.read_of_file h
  rw [manifestPath] at hread
  simp only [Cache.currentManifest, Disk.readText_of_read hread, Manifest.parseAs_indented hm]

/-- The manifest that a cache is opened with is about its source and follows the rule. -/
theorem Filed.currentManifest (h : Filed R s d) (hd : s.Laid d) (digest : String) :
    ∃ m, Cache.currentManifest d s.directory digest = .ok m ∧ m.sourceDigest = digest ∧
      Follows R m d := by
  rcases h with hnone | ⟨m, hfile, hm⟩
  · exact ⟨_, currentManifest_of_none hd hnone digest, rfl, follows_empty R digest d⟩
  · refine ⟨_, currentManifest_of_file hd hfile hm.sorted digest, ?_⟩
    split
    · rename_i heq
      exact ⟨heq, hm⟩
    · exact ⟨rfl, follows_empty R digest d⟩

/-- The manifest is what is in its file, it is about the source, and it follows a rule. -/
structure Standing (R : Rule) (s : Site) (source : ByteArray) (m : Manifest) (d : Disk) :
    Prop where
  manifest : Follows R m d
  digest : m.sourceDigest = Digest.ofBytes source
  file : d.get? s.manifestPlace = some (manifestFile m) ∨
    d.get? s.manifestPlace = none ∧ m = .empty (Digest.ofBytes source)
  source : d.get? s.origin = some (.file source)

/-- A program is opened with the manifest that stands. -/
theorem Standing.currentManifest {source : ByteArray} (hd : s.Laid d)
    (h : Standing R s source m d) :
    Cache.currentManifest d s.directory (Digest.ofBytes source) = .ok m := by
  rcases h.file with hfile | ⟨hnone, rfl⟩
  · rw [currentManifest_of_file hd hfile h.manifest.sorted, if_pos h.digest]
  · exact currentManifest_of_none hd hnone _

end PassTuner.Site
