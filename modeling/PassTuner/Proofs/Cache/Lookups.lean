import PassTuner.Proofs.Cache.Records
import PassTuner.Proofs.Program.Measuring

/-!
# What becomes of look-ups

A look-up depends on the variant's entry and on its two files alone. Asking for a variant leaves the
look-ups of all others as they were; the variant itself is a hit afterwards if that succeeds, and if
it fails its look-up can have changed only if it was a miss. Taking files away makes misses of hits,
and corruption of neither.
-/

namespace PassTuner.Site

variable {s : Site} {m m' : Manifest} {u v w : Variant} {flag : Option String} {d d' : Disk}
  {C : Conduct} {source : ByteArray} {r : Except EnvironmentError Unit} {e : EnvironmentError}

abbrev LookUp := Except EnvironmentError (Option Artifacts)

/-- What a program that is opened on a disk, as it is, finds of a variant. -/
def lookUp (s : Site) (d : Disk) (v : Variant) : LookUp :=
  match d.read s.source with
  | .error e => .error (.invalidSource s.source (.unreadable e))
  | .ok content =>
    match Cache.currentManifest d s.directory (Digest.ofBytes content) with
    | .error e => .error e
    | .ok m => (s.cache m).lookup d v

/-- Entries are about variants whose artifacts can have their names. -/
def Holdable (s : Site) : Rule := fun _ v _ _ => s.Nameable v

theorem lookup_of_missing (h : m.get? v.encode = none) : (s.cache m).lookup d v = .ok none := by
  have hmanifest : (s.cache m).manifest.get? v.encode = none := h
  simp only [Cache.lookup, hmanifest]

theorem lookup_congr (hcode : d'.read (s.artifacts v).ir = d.read (s.artifacts v).ir)
    (hexecutable : d'.read (s.artifacts v).executable = d.read (s.artifacts v).executable)
    (hget : m'.get? v.encode = m.get? v.encode) :
    (s.cache m').lookup d' v = (s.cache m).lookup d v := by
  have hmanifest : (s.cache m').manifest.get? v.encode = (s.cache m).manifest.get? v.encode := hget
  simp only [Cache.lookup, Cache.verify, artifacts_cache, hcode, hexecutable, hmanifest]

/-- The look-up of a variant whose entry and files stay as they are. -/
theorem lookup_of_files (hs : s.Clear) (hd : s.Laid d) (hd' : s.Laid d')
    (h : Follows s.Holdable m d) (hcode : d'.get? (s.codePlace v) = d.get? (s.codePlace v))
    (hexecutable : d'.get? (s.executablePlace v) = d.get? (s.executablePlace v))
    (hget : m'.get? v.encode = m.get? v.encode) :
    (s.cache m').lookup d' v = (s.cache m).lookup d v := by
  cases hm : m.get? v.encode with
  | none => rw [lookup_of_missing hm, lookup_of_missing (hget.trans hm)]
  | some digests =>
    have hname : s.Nameable v := h.entry hm
    exact lookup_congr ((hd.leads_code hs hname).read_congr (hd'.leads_code hs hname) hcode)
      ((hd.leads_executable hs hname).read_congr (hd'.leads_executable hs hname) hexecutable) hget

/-! ## Asking for a variant -/

/-- How the look-ups of all variants change when one is asked for. -/
structure Asked (v : Variant) (r : Except EnvironmentError Unit) (before after : Variant → LookUp) :
    Prop where
  others : ∀ w, w ≠ v → after w = before w
  hit : r = .ok () → ∃ a, after v = .ok (some a)
  failed : r ≠ .ok () → after v = before v ∨ before v = .ok none

theorem Ensures.asked (hs : s.Clear) (on : s.On d) (h : Follows s.Holdable m d)
    (hensures : s.Ensures C u v flag m d r m' d') :
    Asked v r ((s.cache m).lookup d) ((s.cache m').lookup d') := by
  have on' := hensures.on hs on
  have others (hget : ∀ w, w ≠ v → m'.get? w.encode = m.get? w.encode) (w : Variant)
      (hw : w ≠ v) : (s.cache m').lookup d' w = (s.cache m).lookup d w := by
    obtain ⟨hcode, hexecutable⟩ := files_of_others hs hw hensures.changedOnly
    exact lookup_of_files hs on.toLaid on'.toLaid h hcode hexecutable (hget w hw)
  cases hensures with
  | hit hlookup => exact ⟨fun _ _ => rfl, fun _ => ⟨_, hlookup⟩, fun _ => .inl rfl⟩
  | corrupted _ => exact ⟨fun _ _ => rfl, nofun, fun _ => .inl rfl⟩
  | failed hlookup _ _ => exact ⟨others fun _ _ => rfl, nofun, fun _ => .inr hlookup⟩
  | @built c x _ hlookup _ _ hc hx _ hname _ =>
    refine ⟨others fun w hw => get?_entered_other m hw c x, fun _ => ⟨s.artifacts v, ?_⟩,
      fun _ => .inr hlookup⟩
    exact lookup_of_reads ((on'.leads_code hs hname).read_of_file hc)
      ((on'.leads_executable hs hname).read_of_file hx) (get?_entered_self m v c x)

/-! ## Files that are gone -/

theorem verify_of_gone {path : String} (digest : String)
    (hread : d'.read path = d.read path ∨ d'.read path = .error .notFound) :
    Cache.verify d' path digest = Cache.verify d path digest ∨
      Cache.verify d' path digest = .ok false := by
  rcases hread with hsame | hgone
  · exact .inl (by simp only [Cache.verify, hsame])
  · exact .inr (by simp only [Cache.verify, hgone])

/-- A look-up that reports corruption did so before files went. -/
theorem lookup_error_of_gone
    (hcode : d'.read (s.artifacts v).ir = d.read (s.artifacts v).ir ∨
      d'.read (s.artifacts v).ir = .error .notFound)
    (hexecutable : d'.read (s.artifacts v).executable = d.read (s.artifacts v).executable ∨
      d'.read (s.artifacts v).executable = .error .notFound)
    (h : (s.cache m).lookup d' v = .error e) : (s.cache m).lookup d v = .error e := by
  unfold Cache.lookup at h ⊢
  cases hget : (s.cache m).manifest.get? v.encode with
  | none => simp [hget] at h
  | some digests =>
    simp only [hget, artifacts_cache] at h ⊢
    rcases verify_of_gone digests.ir hcode with hc | hc
    · rw [hc] at h
      rcases verify_of_gone digests.executable hexecutable with hx | hx
      · rwa [hx] at h
      · rw [hx] at h
        cases hverify : Cache.verify d (s.artifacts v).ir digests.ir with
        | error e' => simpa [hverify] using h
        | ok found => cases found <;> simp [hverify] at h
    · simp [hc] at h

/-! ## A manifest that stands -/

/-- What is found by opening is what the manifest that stands finds. -/
theorem Standing.lookUp {R : Rule} (hd : s.Laid d) (h : Standing R s source m d) :
    s.lookUp d = (s.cache m).lookup d := by
  funext v
  simp only [Site.lookUp, hd.source.read_of_file h.source, h.currentManifest hd]

theorem Standing.ensures (hs : s.Clear) (h : Standing s.Holdable s source m d)
    (away : flag.isSome → v ≠ .base) (hensures : s.Ensures C u v flag m d r m' d') :
    Standing s.Holdable s source m' d' := by
  have elsewhere (d' : Disk) : Follows s.Holdable m d' := h.manifest.mono fun _ _ _ h => h
  have horigin := (origin_of_changed hs away hensures.changedOnly).trans h.source
  cases hensures with
  | hit _ => exact h
  | corrupted _ => exact h
  | failed _ hc _ =>
    refine ⟨elsewhere d', h.digest, ?_, horigin⟩
    rw [hc.same _ fun hp => hp.ne_manifestPlace hs rfl]
    exact h.file
  | @built c x _ _ _ _ _ _ hfile hname _ =>
    exact ⟨(elsewhere d').enter hname, h.digest, .inl hfile, horigin⟩

theorem Standing.same (h : Standing s.Holdable s source m d) (hsame : Disk.Same d d') :
    Standing s.Holdable s source m d' :=
  ⟨h.manifest.mono fun _ _ _ h => h, h.digest, by simpa only [hsame.get?] using h.file,
    (hsame.get? _).trans h.source⟩

end PassTuner.Site
