import PassTuner.Proofs.Cache.Lookups
import PassTuner.Proofs.Program.Corruption
import PassTuner.Proofs.Session.Invariants

/-!
# What failed builds leave behind

An artifact that is taken away is a miss, and its variant is built again in place while its entry
stays in the manifest. When that build fails half way, what the tools left need not have the digests
of the entry: it is litter, and look-ups report it as corruption. Main statement: along a run in
which others do no more than take artifacts away, no look-up ever reports corruption just when no
operation that fails litters, and then no operation reports corruption either.
-/

namespace PassTuner

open Site (LookUp Holdable Standing Asked)

/-- No look-up reports corruption. -/
def Clean (lookUp : Variant → LookUp) : Prop := ∀ v e, lookUp v ≠ .error e

/-- Look-ups that are as they were, hits, or were misses. -/
def Turned (before after : Variant → LookUp) : Prop :=
  ∀ v, after v = before v ∨ (∃ a, after v = .ok (some a)) ∨ before v = .ok none

/-- The manifest stands, and something is known of what it finds. -/
structure Upkept (s : Site) (source : ByteArray) (K : (Variant → LookUp) → Prop) (m : Manifest)
    (d : Disk) : Prop extends Standing s.Holdable s source m d where
  lookups : K ((s.cache m).lookup d)

variable {σ : Type} {s : Site} {tc : Toolchain σ} {workDir : String} {C : Conduct}
  {source : ByteArray} {K : (Variant → LookUp) → Prop} {m m' : Manifest} {u v : Variant}
  {d d' : Disk} {flag : Option String} {r : Except EnvironmentError Unit}
  {before after : Variant → LookUp}

theorem Clean.asked (h : Clean before) (asked : Asked v (.ok ()) before after) : Clean after := by
  intro w e
  by_cases hw : w = v
  · subst hw
    obtain ⟨a, ha⟩ := asked.hit rfl
    rw [ha]
    exact nofun
  · rw [asked.others w hw]
    exact h w e

theorem Turned.asked {start : Variant → LookUp} (h : Turned start before)
    (asked : Asked v r before after) : Turned start after := by
  intro w
  by_cases hw : w = v
  · subst hw
    by_cases hr : r = .ok ()
    · exact .inr (.inl (asked.hit hr))
    · rcases asked.failed hr with hsame | hmiss
      · rw [hsame]
        exact h w
      · rcases h w with hstart | ⟨a, ha⟩ | hnone
        · exact .inr (.inr (hstart.symm.trans hmiss))
        · rw [hmiss] at ha
          cases ha
        · exact .inr (.inr hnone)
  · rw [asked.others w hw]
    exact h w

/-- An error that appears where there was none appears at a miss. -/
theorem Turned.miss_of_error (h : Turned before after) (clean : Clean before)
    {e : EnvironmentError} (he : after v = .error e) : before v = .ok none := by
  rcases h v with hsame | ⟨a, ha⟩ | hnone
  · exact absurd (hsame.symm.trans he) (clean v e)
  · rw [he] at ha
    cases ha
  · exact hnone

namespace Upkept

theorem ensures (hs : s.Clear) (on : s.On d) (h : Upkept s source K m d)
    (hK : ∀ {before after}, Asked v r before after → K before → K after)
    (away : flag.isSome → v ≠ .base) (hensures : s.Ensures C u v flag m d r m' d') :
    Upkept s source K m' d' :=
  ⟨h.toStanding.ensures hs away hensures, hK (hensures.asked hs on h.manifest) h.lookups⟩

theorem same (h : Upkept s source K m d) (hsame : Disk.Same d d') : Upkept s source K m d' := by
  refine ⟨h.toStanding.same hsame, ?_⟩
  have hlookup : (s.cache m).lookup d' = (s.cache m).lookup d :=
    funext fun v => Site.lookup_congr (hsame.read _) (hsame.read _) rfl
  rw [hlookup]
  exact h.lookups

theorem readable (on : s.On d) (h : Upkept s source Clean m d) : Program.Readable s m d :=
  ⟨h.lookups, on.source.isFile_iff.2 ⟨source, h.source⟩⟩

theorem settling (hs : s.Clear) (source : ByteArray)
    (hK : ∀ {v before after}, Asked v (.ok ()) before after → K before → K after) :
    Program.Settling C s (fun m _ d => Upkept s source K m d) where
  quiet h hsame := h.same hsame
  built on h hensures := h.ensures hs on hK (by simp) hensures

theorem gains (hs : s.Clear) {b : Bench σ} (on : s.On b.world.disk) (source : ByteArray)
    (hK : ∀ {v before after}, Asked v (.ok ()) before after → K before → K after)
    (action : ActionId) (flag : String) :
    Program.Gains tc C s (fun m _ d => Upkept s source K m d) action flag b where
  built _ h hv _ hensures :=
    have kept := h.ensures hs on hK (fun _ => Variant.ne_base_of_extend? hv) hensures
    ⟨kept, kept⟩

/-- What is known of look-ups, and goes on to hold whatever is asked for, is an invariant. -/
theorem invariant (hs : s.Named) (source : ByteArray)
    (hK : ∀ {v r before after}, Asked v r before after → K before → K after) :
    Session.Invariant C s (fun d => ∃ m, Upkept s source K m d)
      (fun m _ d => Upkept s source K m d) where
  start := by
    rintro d c m r m' d' on ⟨m₀, h⟩ hsource hcurrent hensures
    have heq := hsource.symm.trans h.source
    cases heq
    rw [h.currentManifest on.toLaid] at hcurrent
    cases hcurrent
    have kept := h.ensures (hs.clear on) on hK (by simp) hensures
    exact ⟨⟨m', kept⟩, fun _ => kept⟩
  stop h := ⟨_, h⟩
  quiet h hsame := h.same hsame
  base on h hensures := h.ensures (hs.clear on) on hK (by simp) hensures
  home h := h

theorem tries (hs : s.Clear) {b : Bench σ} (on : s.On b.world.disk) (source : ByteArray)
    (hK : ∀ {v r before after}, Asked v r before after → K before → K after)
    (action : ActionId) (flag : String) :
    Program.Tries tc C s (fun m _ d => Upkept s source K m d) action flag b where
  toGains := gains hs on source hK action flag
  failed _ h hv hensures :=
    h.ensures hs on hK (fun _ => Variant.ne_base_of_extend? hv) hensures

end Upkept

/-! ## Events -/

/-- Nobody but the program writes a file, and nobody takes away anything but artifacts. -/
def Event.OnlyRemoves : Event → Prop
  | .edit file content => content = none ∧ file ≠ .manifest ∧ file ≠ .code .base
  | _ => True

/-- What a session is known to keep up. -/
abbrev KeepsUp (s : Site) (source : ByteArray) (K : (Variant → LookUp) → Prop) (x : Session σ) :
    Prop :=
  Session.Keeps s (fun d => ∃ m, Upkept s source K m d) (fun m _ d => Upkept s source K m d) x

/-- An event that fails litters if it makes corruption of a miss. -/
structure Litters (tc : Toolchain σ) (workDir : String) (s : Site) (event : Event)
    (x : Session σ) : Prop where
  fails : ∃ e, (Session.perform tc workDir s event x).1 = .failed e
  spoils : ∃ v e, s.lookUp x.world.disk v = .ok none ∧
    s.lookUp (Session.perform tc workDir s event x).2.world.disk v = .error e

variable {x : Session σ} {event : Event} {events : List Event}

theorem KeepsUp.upkept (h : KeepsUp s source K x) : ∃ m, Upkept s source K m x.world.disk := by
  unfold KeepsUp Session.Keeps at h
  split at h
  · obtain ⟨m, _, hm⟩ := h.state
    exact ⟨m, hm⟩
  · exact h.2

theorem KeepsUp.lookups (h : KeepsUp s source K x) : K (s.lookUp x.world.disk) := by
  obtain ⟨m, hm⟩ := h.upkept
  rw [hm.lookUp h.on.toLaid]
  exact hm.lookups

/-- What is known of the look-ups of a session may be whatever is true of them. -/
theorem KeepsUp.of_lookups {K' : (Variant → LookUp) → Prop} (h : KeepsUp s source K x)
    (hK : K' (s.lookUp x.world.disk)) : KeepsUp s source K' x := by
  have on := h.on
  unfold KeepsUp Session.Keeps at h ⊢
  split at h
  · obtain ⟨m, hp, hm⟩ := h.state
    rw [hm.lookUp on.toLaid] at hK
    exact ⟨h.on, h.home, m, hp, hm.toStanding, hK⟩
  · obtain ⟨_, m, hm⟩ := h
    rw [hm.lookUp on.toLaid] at hK
    exact ⟨on, m, hm.toStanding, hK⟩

/-- Taking an artifact away makes no corruption. -/
theorem Upkept.edit (hs : s.Clear) (on : s.On d) (h : Upkept s source K m d) {file : SiteFile}
    (manifest : file ≠ .manifest) (base : file ≠ .code .base)
    (hK : (∀ v e, (s.cache m).lookup (s.edit file none d) v = .error e →
      (s.cache m).lookup d v = .error e) → K ((s.cache m).lookup d) →
      K ((s.cache m).lookup (s.edit file none d))) :
    Upkept s source K m (s.edit file none d) := by
  have on' := on.edit hs file none
  have hchanged := on.changedOnly_edit hs file none
  have origin := Site.origin_ne_placeOf hs base
  have gone {path : String} {p : Place} (hl : d.Leads path p) :
      (s.edit file none d).read path = d.read path ∨
        (s.edit file none d).read path = .error .notFound := by
    have hl' := hchanged.leads hl
    rcases on.get?_edit_none hs file p with hsame | hnone
    · exact .inl (hl.read_congr hl' hsame)
    · exact .inr (hl'.read_of_none hnone)
  refine ⟨⟨h.manifest.mono fun _ _ _ h => h, h.digest, ?_, ?_⟩, hK (fun v e he => ?_) h.lookups⟩
  · rw [hchanged.same _ (Site.placeOf_ne_manifestPlace hs manifest).symm]
    exact h.file
  · exact (hchanged.same _ origin).trans h.source
  · cases hget : m.get? v.encode with
    | none =>
      rw [Site.lookup_of_missing hget] at he
      cases he
    | some digests =>
      have hname : s.Nameable v := h.manifest.entry hget
      exact Site.lookup_error_of_gone (gone (on.leads_code hs hname))
        (gone (on.leads_executable hs hname)) he

/-- Operations do no harm to what goes on to hold whatever is asked for. -/
theorem harmless_operation (hs : s.Named) (source : ByteArray)
    (hK : ∀ {v r before after}, Asked v r before after → K before → K after)
    (operation : ∀ file content, event ≠ .edit file content) :
    Session.Harmless C s tc (fun d => ∃ m, Upkept s source K m d)
      (fun m _ d => Upkept s source K m d) event x := by
  cases event with
  | step catalog action =>
    intro p hp flag cost b hd hready h
    exact Upkept.tries (hs.clear h.on) h.on source hK action flag
  | edit file content => exact absurd rfl (operation file content)
  | _ => trivial

theorem keepsUp_perform (hs : s.Named) (tidy : tc.Tidy C)
    (directory : Path.join workDir s.stem = s.directory) (removes : event.OnlyRemoves)
    (h : KeepsUp s source (fun _ => True) x) :
    KeepsUp s source (fun _ => True) (Session.perform tc workDir s event x).2 := by
  refine Session.keeps_perform hs tidy (Upkept.invariant hs source fun _ _ => trivial) directory
    h ?_
  cases event with
  | edit file content =>
    obtain ⟨rfl, manifest, base⟩ := removes
    have clear := hs.clear h.on
    refine ⟨fun m u d on hm => hm.edit clear on manifest base fun _ _ => trivial, ?_⟩
    rintro d on ⟨m, hm⟩
    exact ⟨m, hm.edit clear on manifest base fun _ _ => trivial⟩
  | _ => exact harmless_operation hs source (fun _ _ => trivial) nofun

/-- An operation, however it ends, leaves look-ups as they were, makes hits, or spoils misses. -/
theorem turned_perform (hs : s.Named) (tidy : tc.Tidy C)
    (directory : Path.join workDir s.stem = s.directory)
    (operation : ∀ file content, event ≠ .edit file content) (h : KeepsUp s source K x) :
    Turned (s.lookUp x.world.disk)
      (s.lookUp (Session.perform tc workDir s event x).2.world.disk) := by
  have hK {v r before after} (asked : Asked v r before after)
      (hb : Turned (s.lookUp x.world.disk) before) : Turned (s.lookUp x.world.disk) after :=
    hb.asked asked
  refine KeepsUp.lookups (Session.keeps_perform hs tidy (Upkept.invariant hs source hK) directory
    (h.of_lookups fun v => .inl rfl) (harmless_operation hs source hK operation))

/-- An answer that does not report corruption, and a session that is clean unless it failed. -/
structure Answers (s : Site) (source : ByteArray) (answer : Answer) (x : Session σ) : Prop where
  uncorrupted : ∀ e, answer = .failed e → ¬e.Corrupted
  clean : (∀ e, answer ≠ .failed e) → KeepsUp s source Clean x

theorem answers_operate {α : Type} {work : Work σ α} {answer : α → Answer}
    (answered : ∀ a e, answer a ≠ .failed e) (h : KeepsUp s source Clean x)
    (ok : ∀ p a b, x.program = some p → work ⟨x.world, p⟩ = .ok a b →
      Program.Holds s (fun m _ d => Upkept s source Clean m d) b)
    (error : ∀ p e b, x.program = some p → work ⟨x.world, p⟩ = .error e b → ¬e.Corrupted) :
    Answers s source (x.operate (work >>= fun a => pure (answer a))).1
      (x.operate (work >>= fun a => pure (answer a))).2 := by
  cases hp : x.program with
  | none =>
    rw [Session.operate_of_none hp]
    exact ⟨nofun, fun _ => h⟩
  | some p =>
    simp only [Session.operate, hp]
    cases hw : work ⟨x.world, p⟩ with
    | ok a b =>
      rw [EStateM.bind_of_ok hw]
      exact ⟨fun e he => absurd he (answered a e), fun _ => ok p a b hp hw⟩
    | error e b =>
      rw [EStateM.bind_of_error hw]
      refine ⟨fun e' he => ?_, fun hn => absurd rfl (hn e)⟩
      cases he
      exact error p e b hp hw

/-- A program that is opened where nothing is corrupted. -/
theorem answers_open (hs : s.Named) (tidy : tc.Tidy C) {age : Option Nat}
    (hx : Program.Finds s ⟨workDir, age⟩ x.world d source) (hm : Upkept s source Clean m d) :
    Answers s source (Session.perform tc workDir s (.open age) x).1
      (Session.perform tc workDir s (.open age) x).2 := by
  have clear := hs.clear hx.on
  have hopen := Program.open_of_finds hs hx tc
  rw [hm.currentManifest hx.on.toLaid] at hopen
  have fresh : Program.Holds s (fun m _ d => Upkept s source Clean m d)
      (⟨{ x.world with disk := d }, Program.fresh s.stem s.source (s.cache m) ⟨workDir, age⟩⟩ :
        Bench σ) := ⟨hx.on, fun _ => rfl, m, ⟨rfl, rfl⟩, hm⟩
  simp only [Session.perform, hopen]
  cases hstart : Program.starting (Program.fresh s.stem s.source (s.cache m) ⟨workDir, age⟩)
      (Program.measure tc >>= fun _ => pure ()) { x.world with disk := d } with
  | ok p w =>
    obtain ⟨a, b, hmeasure, rfl⟩ := Program.starting_ok hstart
    refine ⟨fun e' he => (by cases he), fun _ => ?_⟩
    exact Program.holds_measure_ok clear tidy
      (Upkept.settling clear source fun asked hK => hK.asked asked) fresh hmeasure
  | error e w =>
    obtain ⟨b, hmeasure, rfl⟩ := Program.starting_error hstart
    refine ⟨fun e' he => ?_, fun hn => absurd rfl (hn e)⟩
    cases he
    exact Program.uncorrupted_of_measure clear tidy (fun on hm => hm.readable on) fresh hmeasure

theorem answers_perform (hs : s.Named) (tidy : tc.Tidy C)
    (directory : Path.join workDir s.stem = s.directory) (removes : event.OnlyRemoves)
    (h : KeepsUp s source Clean x) :
    Answers s source (Session.perform tc workDir s event x).1
      (Session.perform tc workDir s event x).2 := by
  have clear := hs.clear h.on
  have settling : Program.Settling C s (fun m _ d => Upkept s source Clean m d) :=
    Upkept.settling clear source fun asked hK => hK.asked asked
  obtain ⟨m, hm⟩ := h.upkept
  cases event with
  | «open» age =>
    have file : x.world.disk.isFile s.source := h.on.source.isFile_iff.2 ⟨source, hm.source⟩
    exact answers_open hs tidy ⟨directory, file, Disk.makeDirectories_of_directory h.on.directory,
      h.on, hm.source⟩ hm
  | build =>
    refine answers_operate nofun h (fun p a b hp hw => ?_) fun p e b hp hw => ?_
    · exact Program.holds_build_ok clear tidy settling (h.of_some hp) hw
    · exact Program.uncorrupted_of_build clear tidy (fun on hm => hm.readable on) (h.of_some hp) hw
  | measure =>
    refine answers_operate nofun h (fun p a b hp hw => ?_) fun p e b hp hw => ?_
    · exact Program.holds_measure_ok clear tidy settling (h.of_some hp) hw
    · exact Program.uncorrupted_of_measure clear tidy (fun on hm => hm.readable on) (h.of_some hp)
        hw
  | reset =>
    refine answers_operate nofun h (fun p a b hp hw => ?_) fun p e b hp hw => ?_
    · exact Program.holds_reset_ok clear tidy settling (fun hm => hm) (h.of_some hp) hw
    · exact Program.uncorrupted_of_reset clear tidy (fun on hm => hm.readable on) (fun hm => hm)
        (h.of_some hp) hw
  | step catalog action =>
    refine answers_operate nofun h (fun p a b hp hw => ?_) fun p e b hp hw => ?_
    · refine Program.holds_step_ok clear tidy settling (fun flag b₁ hb₁ => ?_) (h.of_some hp) hw
      exact Upkept.gains clear hb₁.on source (fun asked hK => hK.asked asked) action flag
    · exact Program.uncorrupted_of_step clear tidy settling (fun on hm => hm.readable on)
        (h.of_some hp) hw
  | edit file content =>
    have kept : KeepsUp s source (fun _ => True)
        (Session.perform tc workDir s (.edit file content) x).2 :=
      keepsUp_perform hs tidy directory removes (h.of_lookups trivial)
    obtain ⟨rfl, manifest, base⟩ := removes
    have hm' := hm.edit clear h.on manifest base fun fades clean v e he => clean v e (fades v e he)
    refine ⟨nofun, fun _ => kept.of_lookups ?_⟩
    change Clean (s.lookUp (s.edit file none x.world.disk))
    rw [hm'.lookUp (h.on.edit clear file none).toLaid]
    exact hm'.lookups

/-- Only an operation that fails makes corruption, and only of what was a miss. -/
theorem clean_or_litters (hs : s.Named) (tidy : tc.Tidy C)
    (directory : Path.join workDir s.stem = s.directory) (removes : event.OnlyRemoves)
    (h : KeepsUp s source Clean x) :
    KeepsUp s source Clean (Session.perform tc workDir s event x).2 ∨
      Litters tc workDir s event x := by
  have answers := answers_perform hs tidy directory removes h
  by_cases fails : ∃ e, (Session.perform tc workDir s event x).1 = .failed e
  · by_cases clean : Clean (s.lookUp (Session.perform tc workDir s event x).2.world.disk)
    · exact .inl ((keepsUp_perform hs tidy directory removes (h.of_lookups trivial)).of_lookups
        clean)
    · obtain ⟨v, e, he⟩ : ∃ v e,
          s.lookUp (Session.perform tc workDir s event x).2.world.disk v = .error e := by
        simpa [Clean] using clean
      have operation (file : SiteFile) (content : Option ByteArray) :
          event ≠ .edit file content := by
        rintro rfl
        obtain ⟨e, he⟩ := fails
        cases he
      have turned := turned_perform hs tidy directory operation h
      exact .inr ⟨fails, v, e, turned.miss_of_error h.lookups he, he⟩
  · exact .inl (answers.clean fun e he => fails ⟨e, he⟩)

/-! ## Runs -/

theorem clean_of_empty (s : Site) (digest : String) (d : Disk) :
    Clean ((s.cache (.empty digest)).lookup d) := by
  intro v e
  rw [Site.lookup_of_missing rfl]
  exact nofun

/-- Nothing can be corrupted before anything was entered: a program that is opened for the first
time leaves clean files, also when it does not start. -/
theorem clean_of_starting_error (hs : s.Clear) (tidy : tc.Tidy C) {q : Program} {w w' : World σ}
    {e : EnvironmentError} (on : s.On w.disk)
    (hm : Standing s.Holdable s source (.empty (Digest.ofBytes source)) w.disk)
    (hq : Program.At s (.empty (Digest.ofBytes source)) q) (stage : q.stage = .unbuilt)
    (home : q.lineage = .base)
    (h : Program.starting q (Program.measure tc >>= fun _ => pure ()) w = .error e w') :
    s.On w'.disk ∧ ∃ m, Upkept s source Clean m w'.disk := by
  obtain ⟨b, hmeasure, rfl⟩ := Program.starting_error h
  rcases Program.of_measure_error hmeasure with hb | ⟨b₁, hb, hrun⟩
  · obtain ⟨_, _, hensures⟩ := Program.of_build_error hs tidy hq on stage home hb
    exact ⟨hensures.on hs on, _, hm.ensures hs (by simp) hensures, clean_of_empty s _ _⟩
  · obtain ⟨_, hsame, _⟩ := Program.runMeasurement_error tidy.measure hrun
    have fresh : Program.Holds s (fun m _ d => Upkept s source Clean m d) (⟨w, q⟩ : Bench σ) :=
      ⟨on, fun _ => home, _, hq, hm, clean_of_empty s _ _⟩
    have built := Program.holds_build_ok hs tidy
      (Upkept.settling hs source fun asked hK => hK.asked asked) fresh hb
    obtain ⟨m, _, hm'⟩ := built.state
    exact ⟨built.on.of_changedOnly hs hsame nofun, m, hm'.same hsame⟩

theorem answers_first_open {w : World σ} (h : Session.Unopened s workDir w d source)
    (tidy : tc.Tidy C) (age : Option Nat) :
    (∀ e, (Session.perform tc workDir s (.open age) ⟨w, none⟩).1 = .failed e → ¬e.Corrupted) ∧
      KeepsUp s source Clean (Session.perform tc workDir s (.open age) ⟨w, none⟩).2 := by
  have clear := h.toNamed.clear h.on
  have standing : Standing s.Holdable s source (.empty (Digest.ofBytes source)) d :=
    ⟨Site.follows_empty _ _ _, rfl, .inr ⟨h.blank, rfl⟩, h.source⟩
  have answers := answers_open (x := ⟨w, none⟩) h.toNamed tidy (h.finds age)
    ⟨standing, clean_of_empty s _ d⟩
  refine ⟨answers.uncorrupted, ?_⟩
  have hopen := Program.open_of_finds h.toNamed (h.finds age) tc
  rw [standing.currentManifest h.on.toLaid] at hopen
  simp only [Session.perform, hopen] at answers ⊢
  cases hstart : Program.starting (Program.fresh s.stem s.source
      (s.cache (.empty (Digest.ofBytes source))) ⟨workDir, age⟩)
      (Program.measure tc >>= fun _ => pure ()) { w with disk := d } with
  | ok p w' =>
    rw [hstart] at answers
    exact answers.clean fun e he => by cases he
  | error e w' =>
    exact clean_of_starting_error clear tidy (w := { w with disk := d }) h.on standing ⟨rfl, rfl⟩
      rfl rfl hstart

/-- Along a run in which others only take artifacts away, look-ups report corruption just when an
operation has littered. -/
theorem throughout_clean_iff (hs : s.Named) (tidy : tc.Tidy C)
    (directory : Path.join workDir s.stem = s.directory)
    (remove : ∀ event ∈ events, event.OnlyRemoves) (h : KeepsUp s source Clean x) :
    Session.Throughout tc workDir s (fun x => Clean (s.lookUp x.world.disk)) events x ↔
      Session.Along tc workDir s (fun event x => ¬Litters tc workDir s event x) events x := by
  induction events generalizing x with
  | nil => exact ⟨fun _ => trivial, fun _ => h.lookups⟩
  | cons event events ih =>
    have step := clean_or_litters hs tidy directory (remove event List.mem_cons_self) h
    have ih' (kept : KeepsUp s source Clean (Session.perform tc workDir s event x).2) :=
      ih (fun other hother => remove other (List.mem_cons_of_mem _ hother)) kept
    constructor
    · rintro ⟨_, hrest⟩
      have tidied : ¬Litters tc workDir s event x := fun ⟨_, v, e, _, he⟩ => hrest.head v e he
      exact ⟨tidied, (ih' (step.resolve_right tidied)).1 hrest⟩
    · rintro ⟨tidied, hrest⟩
      exact ⟨h.lookups, (ih' (step.resolve_right tidied)).2 hrest⟩

/-- No operation of a run without litter reports corruption. -/
theorem uncorrupted_reports (hs : s.Named) (tidy : tc.Tidy C)
    (directory : Path.join workDir s.stem = s.directory)
    (remove : ∀ event ∈ events, event.OnlyRemoves) (h : KeepsUp s source Clean x)
    (tidied : Session.Along tc workDir s (fun event x => ¬Litters tc workDir s event x) events x) :
    ∀ report ∈ Session.reports tc workDir s events x,
      ∀ e, report.answer = .failed e → ¬e.Corrupted := by
  induction events generalizing x with
  | nil =>
    intro report hreport
    cases hreport
  | cons event events ih =>
    have removes := remove event List.mem_cons_self
    have kept := (clean_or_litters hs tidy directory removes h).resolve_right tidied.1
    intro report hreport
    rcases List.mem_cons.1 hreport with rfl | hrest
    · exact (answers_perform hs tidy directory removes h).uncorrupted
    · exact ih (fun other hother => remove other (List.mem_cons_of_mem _ hother)) kept tidied.2
        report hrest

/-- From the first time that a program is opened on, and as long as others only take artifacts away:
no look-up ever reports corruption just when no operation that fails litters, and then no operation
reports corruption either. -/
theorem no_corruption_iff_no_litter {w : World σ} (h : Session.Unopened s workDir w d source)
    (tidy : tc.Tidy C) (age : Option Nat) (remove : ∀ event ∈ events, event.OnlyRemoves) :
    (Session.Throughout tc workDir s (fun x => Clean (s.lookUp x.world.disk)) events
        (Session.run tc workDir s [.open age] ⟨w, none⟩) ↔
      Session.Along tc workDir s (fun event x => ¬Litters tc workDir s event x) events
        (Session.run tc workDir s [.open age] ⟨w, none⟩)) ∧
    (Session.Along tc workDir s (fun event x => ¬Litters tc workDir s event x) events
        (Session.run tc workDir s [.open age] ⟨w, none⟩) →
      ∀ report ∈ Session.reports tc workDir s (.open age :: events) ⟨w, none⟩,
        ∀ e, report.answer = .failed e → ¬e.Corrupted) := by
  obtain ⟨opened, kept⟩ := answers_first_open h tidy age
  refine ⟨throughout_clean_iff h.toNamed tidy h.directory remove kept, fun tidied => ?_⟩
  intro report hreport
  rcases List.mem_cons.1 hreport with rfl | hrest
  · exact opened
  · exact uncorrupted_reports h.toNamed tidy h.directory remove kept tidied report hrest

/-! Tools that wear out in the middle of a run: what they write when they fail stays where the
artifact of an entry was, and the next look-up takes it for corruption. -/

/-- A tool that copies its input until it has worked for a while, and then writes nothing of use and
fails. -/
def wearing (input output : String) : Tool Nat ToolOutput := fun w =>
  match w.disk.read input with
  | .error e => .error (.file input e) w
  | .ok content =>
    match w.disk.write output (if w.tools < 5 then content else .empty) with
    | .error e => .error (.file output e) w
    | .ok disk =>
      .ok (if w.tools < 5 then .ok "" else .exited 1 "" "") ⟨disk, w.clock, w.tools + 1⟩

def wearingTools : Toolchain Nat where
  compile := wearing
  link := wearing
  transform _ := wearing
  measure _ := return .ok "SYMVEC1 5.0 0SYMVEC"
  describe := return .ok ""
  transient := .standard

/-- A conduct that says nothing of what tools make of their inputs. -/
def anyConduct : Conduct := ⟨fun _ _ _ => True, fun _ _ => True, fun _ _ => True, fun _ _ => True⟩

theorem keeps_wearing : Tool.Keeps (fun _ _ => True) wearing where
  changed := by
    intro input output w
    unfold Tool.after wearing
    cases w.disk.read input with
    | error e => exact Disk.ChangedOnly.refl _ _
    | ok content =>
      dsimp only
      cases hwrite : w.disk.write output (if w.tools < 5 then content else .empty) with
      | error e => exact Disk.ChangedOnly.refl _ _
      | ok disk =>
        obtain ⟨p, hp, rfl⟩ := Disk.leads_of_write hwrite
        refine (Disk.changedOnly_put hp.apart _).mono ?_
        rintro q rfl
        exact hp
  made := by
    intro input output w o w' h _
    unfold wearing at h
    cases hread : w.disk.read input with
    | error e => simp [hread] at h
    | ok content =>
      simp only [hread] at h
      cases hwrite : w.disk.write output (if w.tools < 5 then content else .empty) with
      | error e => simp [hwrite] at h
      | ok disk =>
        simp only [hwrite] at h
        cases h
        obtain ⟨p, hp, rfl⟩ := Disk.leads_of_write hwrite
        exact ⟨content, p, _, rfl, hp, Disk.get?_put_same _ hp.ne_root _, trivial⟩
  refused _ _ _ _ := trivial
  broken _ _ _ := trivial

theorem tidy_wearingTools : wearingTools.Tidy anyConduct where
  transform _ := keeps_wearing
  compile := keeps_wearing
  link := keeps_wearing
  measure := ⟨fun _ _ => Disk.ChangedOnly.refl _ _, fun _ _ => trivial, fun _ _ => trivial⟩

def wornWorld : World Nat := ⟨Session.soloWorld.disk, 0, 0⟩

theorem unopened_worn :
    Session.Unopened Session.soloSite "build" wornWorld Session.soloDisk Session.soloSource :=
  Session.unopened_solo.of_disk rfl

/-- The code of a variant is taken away, and the variant tried again. -/
def worn : List Event :=
  [.step Program.soloCatalog 0, .reset, .edit (.code Session.soloVariant) none,
    .step Program.soloCatalog 0]

/-- And once more. -/
def wornAgain : List Event := worn ++ [.step Program.soloCatalog 0]

theorem onlyRemoves_wornAgain : ∀ event ∈ wornAgain, event.OnlyRemoves := by
  have away : Session.soloVariant ≠ .base :=
    fun h => by cases congrArg Variant.actions h
  simp [wornAgain, worn, Event.OnlyRemoves, away]

def saysCorrupted : Answer → Bool
  | .failed (.cacheCorrupted ..) => true
  | _ => false

theorem exists_corrupted {all : List Event} (hall : all = events ++ [event]) (h : saysCorrupted
    (Session.perform tc workDir s event (Session.run tc workDir s events x)).1 = true) :
    ∃ report ∈ Session.reports tc workDir s all x,
      ∃ e, report.answer = .failed e ∧ e.Corrupted := by
  rw [hall, Session.reports_append]
  refine ⟨_, List.mem_append_right _ (List.mem_singleton_self _), ?_⟩
  change ∃ e, (Session.perform tc workDir s event (Session.run tc workDir s events x)).1 = _ ∧ _
  unfold saysCorrupted at h
  split at h
  · rename_i hanswer
    exact ⟨_, hanswer, _, _, rfl⟩
  · cases h

theorem wornAgain_eq : Event.open none :: wornAgain =
    (.open none :: worn) ++ [.step Program.soloCatalog 0] := rfl

theorem saysCorrupted_worn : saysCorrupted (Session.perform wearingTools "build" Session.soloSite
    (.step Program.soloCatalog 0) (Session.run wearingTools "build" Session.soloSite
      (.open none :: worn) ⟨wornWorld, none⟩)).1 = true := by
  decide +kernel

/-- With tools that keep to their outputs, and others that only take artifacts away, an operation
may report corruption all the same. -/
theorem worn_tools_corrupt : ¬∀ (C : Conduct) (tc : Toolchain Nat) (s : Site) (workDir : String)
    (w : World Nat) (d : Disk) (source : ByteArray) (age : Option Nat) (events : List Event),
    Session.Unopened s workDir w d source → tc.Tidy C → (∀ event ∈ events, event.OnlyRemoves) →
    ∀ report ∈ Session.reports tc workDir s (.open age :: events) ⟨w, none⟩,
      ∀ e, report.answer = .failed e → ¬e.Corrupted := by
  intro h
  obtain ⟨report, hreport, e, hanswer, hcorrupted⟩ :=
    exists_corrupted wornAgain_eq saysCorrupted_worn
  exact h anyConduct wearingTools Session.soloSite "build" wornWorld Session.soloDisk
    Session.soloSource none wornAgain unopened_worn tidy_wearingTools onlyRemoves_wornAgain report
    hreport e hanswer hcorrupted

theorem no_corruption_iff_no_litter_worn :
    (Session.Throughout wearingTools "build" Session.soloSite
        (fun x => Clean (Session.soloSite.lookUp x.world.disk)) wornAgain
        (Session.run wearingTools "build" Session.soloSite [.open none] ⟨wornWorld, none⟩) ↔
      Session.Along wearingTools "build" Session.soloSite
        (fun event x => ¬Litters wearingTools "build" Session.soloSite event x) wornAgain
        (Session.run wearingTools "build" Session.soloSite [.open none] ⟨wornWorld, none⟩)) ∧
    (Session.Along wearingTools "build" Session.soloSite
        (fun event x => ¬Litters wearingTools "build" Session.soloSite event x) wornAgain
        (Session.run wearingTools "build" Session.soloSite [.open none] ⟨wornWorld, none⟩) →
      ∀ report ∈ Session.reports wearingTools "build" Session.soloSite (.open none :: wornAgain)
        ⟨wornWorld, none⟩, ∀ e, report.answer = .failed e → ¬e.Corrupted) :=
  no_corruption_iff_no_litter unopened_worn tidy_wearingTools none onlyRemoves_wornAgain

end PassTuner
