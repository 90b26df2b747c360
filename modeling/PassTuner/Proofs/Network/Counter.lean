import PassTuner.Proofs.Network.Loading
import PassTuner.Proofs.Number.Powers

/-!
# The step counter of the optimizer

The counter has 32 bits without a sign, and is read as a number with one when the corrections are
computed. A network is checked for the lengths of its rows when it is loaded, and not for its
counter. Main statement: the counter is sound along a row of fits just while it stays below two to
the 31. Then each step makes it one larger, the exponent is that number, both powers are below one
and both corrections above zero.
-/

namespace PassTuner.Network

open Singles

variable {n m : Network} {inputs outputs : ℕ} {batch : List FitSample} {limit loss : Float32}

/-! ## Exponents -/

/-- The exponent is the counter while that is below two to the 31, and is below zero from then on.
-/
theorem exponent_eq (c : UInt32) :
    Adam.exponent c = if c.toNat < 2 ^ 31 then (c.toNat : ℤ) else c.toNat - 2 ^ 32 := by
  have hdef : Adam.exponent c = c.toBitVec.toInt := rfl
  rw [hdef, BitVec.toInt_eq_toNat_cond]
  have hnat : c.toBitVec.toNat = c.toNat := rfl
  simp only [hnat]
  split <;> split <;> omega

theorem toNat_add_one {c : UInt32} (h : c.toNat + 1 < UInt32.size) :
    (c + 1).toNat = c.toNat + 1 := by
  rw [UInt32.toNat_add]
  exact Nat.mod_eq_of_lt h

/-- Where the optimizer makes a sound step: there is room in the counter, the exponent of the
corrections is at least one, both powers are from zero to below one and both corrections above
zero. -/
structure StepSound (n : Network) : Prop where
  room : n.steps.toNat + 1 < UInt32.size
  counted : (n.steps + 1).toNat = n.steps.toNat + 1
  exponent : 1 ≤ Adam.exponent (n.steps + 1)
  moment : 0 ≤ Adam.pow Adam.momentDecay (Adam.exponent (n.steps + 1)) ∧
    Adam.pow Adam.momentDecay (Adam.exponent (n.steps + 1)) < 1
  square : 0 ≤ Adam.pow Adam.squareDecay (Adam.exponent (n.steps + 1)) ∧
    Adam.pow Adam.squareDecay (Adam.exponent (n.steps + 1)) < 1
  momentCorrection : 0 < (Adam.Step.ofCount n.learningRate (n.steps + 1)).momentCorrection
  squareCorrection : 0 < (Adam.Step.ofCount n.learningRate (n.steps + 1)).squareCorrection

/-- A step is sound just if it does not take the counter to two to the 31. -/
theorem stepSound_iff : n.StepSound ↔ n.steps.toNat + 1 < 2 ^ 31 := by
  constructor
  · intro h
    have hexponent := h.exponent
    rw [exponent_eq, h.counted] at hexponent
    have hroom := h.room
    simp only [UInt32.size] at hroom
    split at hexponent <;> omega
  · intro h
    have hroom : n.steps.toNat + 1 < UInt32.size := h.trans (by decide)
    have hcount := toNat_add_one hroom
    have hexponent : 1 ≤ Adam.exponent (n.steps + 1) := by
      rw [exponent_eq, hcount, if_pos h]
      omega
    have hmoment := Adam.below_pow Adam.below_momentDecay hexponent
    have hsquare := Adam.below_pow Adam.below_squareDecay hexponent
    exact ⟨hroom, hcount, hexponent, ⟨hmoment.nonneg, hmoment.lt_one⟩,
      ⟨hsquare.nonneg, hsquare.lt_one⟩,
      hmoment.one_sub_pos, hsquare.one_sub_pos⟩

/-! ## Fits in turn -/

/-- A batch and the limit of its gradients. -/
structure Fit where
  batch : List FitSample
  limit : Float32

/-- The network after fits in turn, if each is defined. -/
def fits? (n : Network) : List Fit → Option Network
  | [] => some n
  | f :: rest => (n.fit? f.batch f.limit).bind fun fitted => fitted.2.fits? rest

/-- A fit that is defined makes one step. -/
theorem steps_of_fit? (hsome : batch ≠ []) (h : n.fit? batch limit = some (loss, m)) :
    m.steps.toNat = n.steps.toNat + 1 := by
  rw [fit?, if_neg (by simpa using hsome)] at h
  simp only [Option.bind_eq_bind, Option.bind_eq_some_iff, Option.pure_def, Option.some.injEq] at h
  obtain ⟨⟨_, grads⟩, -, clamped, -, n', hstep, heq⟩ := h
  cases heq
  unfold adamStep? at hstep
  split at hstep
  · cases hstep
  · rename_i hroom
    cases hstep
    have := n.steps.toNat_lt
    exact toNat_add_one (by simp only [UInt32.size] at hroom ⊢; omega)

/-- Nobody asks for what is not there. -/
def InRange (outputs : ℕ) (fits : List Fit) : Prop :=
  ∀ f ∈ fits, f.batch ≠ [] ∧ ∀ x ∈ f.batch, x.action < outputs

/-- By induction on the fits: they keep the shape, and each makes one step. -/
theorem HasShape.fits? (h : n.HasShape inputs outputs) {fits : List Fit} (hr : InRange outputs fits)
    (hm : n.fits? fits = some m) :
    m.HasShape inputs outputs ∧ m.steps.toNat = n.steps.toNat + fits.length := by
  induction fits generalizing n with
  | nil =>
    cases hm
    exact ⟨h, rfl⟩
  | cons f rest ih =>
    obtain ⟨⟨loss, n'⟩, hfit, hrest⟩ := Option.bind_eq_some_iff.1 hm
    obtain ⟨hsome, hactions⟩ := hr f List.mem_cons_self
    have hshape : n'.HasShape inputs outputs := by
      obtain ⟨_, _, hfit', hshape, -⟩ | ⟨hnone, -⟩ := h.fit hactions f.limit
      · rw [hfit] at hfit'
        cases hfit'
        exact hshape
      · rw [hfit] at hnone
        cases hnone
    obtain ⟨hm', hcount⟩ := ih hshape (fun g hg => hr g (List.mem_cons_of_mem f hg)) hrest
    refine ⟨hm', ?_⟩
    rw [hcount, steps_of_fit? hsome hfit, List.length_cons]
    omega

/-! ## Soundness -/

/-- Along fits in turn the counter is sound: wherever one is asked for, the optimizer makes a sound
step, and the fit is defined unless its limit cannot be used. -/
def CounterSound (n : Network) (fits : List Fit) : Prop :=
  ∀ earlier f later m, fits = earlier ++ f :: later → n.fits? earlier = some m →
    m.StepSound ∧ (m.fit? f.batch f.limit = none → ¬-f.limit ≤ f.limit)

variable {fits : List Fit}

theorem CounterSound.front {more : List Fit} (h : n.CounterSound (fits ++ more)) :
    n.CounterSound fits := by
  rintro earlier f later m rfl hm
  exact h earlier f (later ++ more) m (by simp) hm

theorem CounterSound.rest {f : Fit} (h : n.CounterSound (f :: fits))
    (hfit : n.fit? f.batch f.limit = some (loss, m)) : m.CounterSound fits := by
  rintro earlier g later m' rfl hm'
  refine h (f :: earlier) g later m' rfl ?_
  rw [Network.fits?, hfit]
  exact hm'

/-- Fits along which the counter is sound are all defined, if their limits can be used. -/
theorem CounterSound.defined (h : n.CounterSound fits) (hlimits : ∀ f ∈ fits, -f.limit ≤ f.limit) :
    ∃ m, n.fits? fits = some m := by
  induction fits generalizing n with
  | nil => exact ⟨n, rfl⟩
  | cons f rest ih =>
    cases hfit : n.fit? f.batch f.limit with
    | none =>
      exact absurd (hlimits f List.mem_cons_self) ((h [] f rest n rfl rfl).2 hfit)
    | some fitted =>
      obtain ⟨m, hm⟩ := ih (h.rest hfit) fun g hg => hlimits g (List.mem_cons_of_mem f hg)
      refine ⟨m, ?_⟩
      rw [Network.fits?, hfit]
      exact hm

/-- A network that is new or was loaded, whatever the file said. -/
inductive Obtained (inputs outputs : ℕ) : Network → Prop where
  | new (learningRate : Float32) (seed : UInt64) :
    Obtained inputs outputs (new inputs outputs learningRate seed)
  | loaded {n : Network} (d : Disk) (directory : String) :
    load d directory inputs outputs = .ok n → Obtained inputs outputs n

theorem Obtained.hasShape (h : Obtained inputs outputs n) : n.HasShape inputs outputs := by
  cases h with
  | new => exact hasShape_new ..
  | loaded d directory h =>
    obtain ⟨_, s, -, -, rfl, hshaped⟩ := stored_of_load h
    exact hshaped.toStored_toNetwork.2

/-- **The step counter.** Along fits that ask for actions that are there, the counter of a network
that is new or was loaded is sound while no step takes it to two to the 31: there is room, the
exponent is at least one, both powers are below one and both corrections above zero. With limits
that can be used it is sound in no other case. -/
theorem counter_sound (hn : Obtained inputs outputs n) (hr : InRange outputs fits) :
    (n.steps.toNat + fits.length < 2 ^ 31 → n.CounterSound fits) ∧
    ((∀ f ∈ fits, -f.limit ≤ f.limit) → n.CounterSound fits →
      fits = [] ∨ n.steps.toNat + fits.length < 2 ^ 31) := by
  refine ⟨?_, fun hlimits hsound => ?_⟩
  · rintro hsmall earlier f later m rfl hm
    have hbefore : InRange outputs earlier := fun g hg => hr g (List.mem_append_left _ hg)
    obtain ⟨hshape, hcount⟩ := hn.hasShape.fits? hbefore hm
    rw [List.length_append, List.length_cons] at hsmall
    have hroom : m.steps.toNat + 1 < 2 ^ 31 := by omega
    refine ⟨stepSound_iff.2 hroom, fun hnone => ?_⟩
    have hactions := (hr f (List.mem_append_right _ List.mem_cons_self)).2
    obtain ⟨_, _, hsome, -⟩ | ⟨-, -, ⟨hlimit, -⟩ | ⟨hlast, -⟩⟩ := hshape.fit hactions f.limit
    · rw [hsome] at hnone
      cases hnone
    · exact hlimit
    · simp only [UInt32.size] at hlast
      omega
  · obtain rfl | ⟨earlier, f, rfl⟩ := List.eq_nil_or_concat' fits
    · exact .inl rfl
    · have hbefore : InRange outputs earlier := fun g hg => hr g (List.mem_append_left _ hg)
      obtain ⟨m, hm⟩ := hsound.front.defined fun g hg => hlimits g (List.mem_append_left _ hg)
      obtain ⟨-, hcount⟩ := hn.hasShape.fits? hbefore hm
      have hroom := stepSound_iff.1 (hsound earlier f [] m rfl hm).1
      rw [List.length_append, List.length_singleton]
      exact .inr (by omega)

/-! One fit of a network that was loaded with a small counter, and of one that was loaded with a
counter past two to the 31. -/

def oneFit : List Fit := [⟨[⟨[1], 0, 3⟩], 1⟩]

theorem inRange_oneFit : InRange 1 oneFit := by
  intro f hf
  rw [List.mem_singleton.1 hf]
  exact ⟨List.cons_ne_nil _ _, by decide⟩

theorem exists_of_steps {d : Disk} {directory : String} {k : ℕ}
    (h : (load d directory inputs outputs).toOption.map (·.steps.toNat) = some k) :
    ∃ n, load d directory inputs outputs = .ok n ∧ n.steps.toNat = k := by
  cases hload : load d directory inputs outputs with
  | error e =>
    rw [hload] at h
    cases h
  | ok n =>
    rw [hload] at h
    exact ⟨n, rfl, Option.some.inj h⟩

theorem counter_sound_small : ∃ n, load smallDisk "model" 1 1 = .ok n ∧ n.CounterSound oneFit := by
  obtain ⟨n, hload, hsteps⟩ := exists_of_steps loads_smallDisk
  have hsmall : n.steps.toNat + oneFit.length < 2 ^ 31 := by
    rw [hsteps]
    decide
  exact ⟨n, hload, (counter_sound (.loaded _ _ hload) inRange_oneFit).1 hsmall⟩

def wrappedText : String :=
  "[[[1,1,[1],[1],[0],[0],[0],[0]],[1,1,[1],[1],[0],[0],[0],[0]],[1,1,[1],[1],[0],[0],[0],[0]]],1," ++
    "4294967290]"

def wrappedDisk : Disk :=
  ⟨[(["model"], .directory), (["1_1.model.json", "model"], .file wrappedText.toUTF8)], []⟩

/-- Nothing keeps a counter from being loaded that the next step takes out of range. -/
theorem counter_may_wrap : ¬∀ (inputs outputs : ℕ) (n : Network) (fits : List Fit),
    Obtained inputs outputs n → InRange outputs fits → n.CounterSound fits := by
  intro h
  have hloaded : (load wrappedDisk "model" 1 1).toOption.map (·.steps.toNat) = some 4294967290 := by
    decide +kernel
  obtain ⟨n, hload, hsteps⟩ := exists_of_steps hloaded
  have hsound := h 1 1 n oneFit (.loaded _ _ hload) inRange_oneFit
  have hroom := stepSound_iff.1 (hsound [] _ [] n rfl rfl).1
  omega

end PassTuner.Network
