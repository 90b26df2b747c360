import PassTuner.Program.Basic

/-!
# What work leaves behind

Work ends with an answer or with an error, and on a bench in either case. Most of it is done in
pieces that touch little of the program, so what a composite piece of work leaves alone follows
from what its parts do: a relation that is reflexive and transitive holds between the programs
before and after work as soon as it holds around every part. An invariant that every part keeps is
kept by the whole.
-/

namespace EStateM

variable {ε σ α β : Type} {s s₁ : σ}

theorem bind_of_ok {x : EStateM ε σ α} {a : α} (h : x s = .ok a s₁) (f : α → EStateM ε σ β) :
    (x >>= f) s = f a s₁ := by
  change EStateM.bind x f s = _
  simp only [EStateM.bind, h]

theorem bind_of_error {x : EStateM ε σ α} {e : ε} (h : x s = .error e s₁)
    (f : α → EStateM ε σ β) : (x >>= f) s = .error e s₁ := by
  change EStateM.bind x f s = _
  simp only [EStateM.bind, h]

theorem of_bind_ok {x : EStateM ε σ α} {f : α → EStateM ε σ β} {c : β}
    (h : (x >>= f) s = .ok c s₁) : ∃ a s₂, x s = .ok a s₂ ∧ f a s₂ = .ok c s₁ := by
  cases hx : x s with
  | error e s₂ => rw [bind_of_error hx] at h; cases h
  | ok a s₂ => rw [bind_of_ok hx] at h; exact ⟨a, s₂, rfl, h⟩

theorem of_bind_error {x : EStateM ε σ α} {f : α → EStateM ε σ β} {e : ε}
    (h : (x >>= f) s = .error e s₁) :
    x s = .error e s₁ ∨ ∃ a s₂, x s = .ok a s₂ ∧ f a s₂ = .error e s₁ := by
  cases hx : x s with
  | error e' s₂ => rw [bind_of_error hx] at h; cases h; exact .inl rfl
  | ok a s₂ => rw [bind_of_ok hx] at h; exact .inr ⟨a, s₂, rfl, h⟩

end EStateM

namespace PassTuner

variable {α β : Type}

/-- Whatever a computation ends in, something that held before holds afterwards. -/
def Keeps {ε S : Type} (J : S → Prop) (x : EStateM ε S α) : Prop :=
  ∀ s, J s → match x s with
    | .ok _ s' => J s'
    | .error _ s' => J s'

section Keeps

variable {ε S : Type} {J : S → Prop} {x : EStateM ε S α} {s s' : S}

theorem Keeps.of_ok (h : Keeps J x) (hs : J s) {a : α} (hx : x s = .ok a s') : J s' := by
  have := h s hs
  rwa [hx] at this

theorem Keeps.of_error (h : Keeps J x) (hs : J s) {e : ε} (hx : x s = .error e s') : J s' := by
  have := h s hs
  rwa [hx] at this

theorem keeps_pure (a : α) : Keeps J (pure a : EStateM ε S α) := fun _ h => h

theorem keeps_throw (e : ε) : Keeps J (throw e : EStateM ε S α) := fun _ h => h

theorem Keeps.bind {f : α → EStateM ε S β} (first : Keeps J x) (second : ∀ a, Keeps J (f a)) :
    Keeps J (x >>= f) := by
  intro s hs
  cases hx : x s with
  | error e s' =>
    rw [EStateM.bind_of_error hx]
    exact first.of_error hs hx
  | ok a s' =>
    rw [EStateM.bind_of_ok hx]
    exact second a s' (first.of_ok hs hx)

end Keeps

end PassTuner

namespace PassTuner.Work

variable {σ α β : Type} {b b₁ : Bench σ} {R : Program → Program → Prop}

/-- The bench after work, however it ended. -/
def after (work : Work σ α) (b : Bench σ) : Bench σ :=
  match work b with
  | .ok _ b => b
  | .error _ b => b

theorem after_of_ok {work : Work σ α} {a : α} (h : work b = .ok a b₁) : work.after b = b₁ := by
  simp only [after, h]

theorem after_of_error {work : Work σ α} {e : EnvironmentError} (h : work b = .error e b₁) :
    work.after b = b₁ := by
  simp only [after, h]

theorem after_of_eq {work work' : Work σ α} (h : work b = work' b₁) :
    work.after b = work'.after b₁ := by
  simp only [after, h]

theorem after_of_keeps {J : Bench σ → Prop} {work : Work σ α} (h : Keeps J work) (hb : J b) :
    J (work.after b) := by
  cases hw : work b with
  | ok a b₁ =>
    rw [after_of_ok hw]
    exact h.of_ok hb hw
  | error e b₁ =>
    rw [after_of_error hw]
    exact h.of_error hb hw

theorem after_bind_of_ok {work : Work σ α} {a : α} (h : work b = .ok a b₁) (f : α → Work σ β) :
    (work >>= f).after b = (f a).after b₁ := by
  unfold after
  rw [EStateM.bind_of_ok h]

/-- Work whose end is related to its beginning, however it ends. -/
def Along (R : Program → Program → Prop) (work : Work σ α) : Prop :=
  ∀ b : Bench σ, R b.program (work.after b).program

theorem Along.of_ok {work : Work σ α} (h : Along R work) {a : α} (hw : work b = .ok a b₁) :
    R b.program b₁.program := by
  have hb := h b
  rwa [after_of_ok hw] at hb

theorem Along.of_error {work : Work σ α} (h : Along R work) {e : EnvironmentError}
    (hw : work b = .error e b₁) : R b.program b₁.program := by
  have hb := h b
  rwa [after_of_error hw] at hb

/-- Work that does not touch the program at all. -/
theorem along_of_same (refl : ∀ p, R p p) {work : Work σ α}
    (same : ∀ b, (work.after b).program = b.program) : Along R work := by
  intro b
  rw [same b]
  exact refl _

theorem Along.bind (trans : ∀ p q r, R p q → R q r → R p r) {work : Work σ α}
    {next : α → Work σ β} (first : Along R work) (second : ∀ a, Along R (next a)) :
    Along R (work >>= next) := by
  intro b
  cases hw : work b with
  | error e b₁ =>
    rw [after_of_error (EStateM.bind_of_error hw next)]
    exact first.of_error hw
  | ok a b₁ =>
    have hn : (work >>= next).after b = (next a).after b₁ := by
      simp only [after, EStateM.bind_of_ok hw next]
    rw [hn]
    exact trans _ _ _ (first.of_ok hw) (second a b₁)

theorem along_pure (refl : ∀ p, R p p) (a : α) : Along R (pure a : Work σ α) :=
  along_of_same refl fun _ => rfl

theorem along_throw (refl : ∀ p, R p p) (e : EnvironmentError) :
    Along R (throw e : Work σ α) := along_of_same refl fun _ => rfl

theorem along_ofTool (refl : ∀ p, R p p) (t : Tool σ α) : Along R (ofTool t) := by
  refine along_of_same refl fun b => ?_
  cases h : t b.world <;> simp [after, ofTool, h]

theorem along_demand (refl : ∀ p, R p p) (trans : ∀ p q r, R p q → R q r → R p r)
    (t : Tool σ ToolOutput) (refusal : ToolOutput → EnvironmentError) :
    Along R (demand t refusal) := by
  refine (along_ofTool refl t).bind trans fun output => ?_
  split
  · exact along_throw refl _
  · exact along_pure refl _

theorem along_ofExcept (refl : ∀ p, R p p) (x : Except EnvironmentError α) :
    Along R (ofExcept x : Work σ α) := by
  cases x with
  | ok a => exact along_pure refl a
  | error e => exact along_throw refl e

theorem along_program (refl : ∀ p, R p p) : Along R (program : Work σ Program) :=
  along_of_same refl fun _ => rfl

theorem along_disk (refl : ∀ p, R p p) : Along R (disk : Work σ Disk) :=
  along_of_same refl fun _ => rfl

theorem along_now (refl : ∀ p, R p p) : Along R (now : Work σ Nat) :=
  along_of_same refl fun _ => rfl

theorem along_sleep (refl : ∀ p, R p p) (n : Nat) : Along R (sleep n : Work σ Unit) :=
  along_of_same refl fun _ => rfl

theorem along_modifyDisk (refl : ∀ p, R p p) (f : Disk → Disk) :
    Along R (modifyDisk f : Work σ Unit) := along_of_same refl fun _ => rfl

theorem along_modifyProgram {f : Program → Program} (h : ∀ p, R p (f p)) :
    Along R (modifyProgram f : Work σ Unit) := fun b => h b.program

theorem Along.cleaning {work : Work σ α} (h : Along R work) (f : Disk → Disk) :
    Along R (cleaning f work) := by
  intro b
  cases hw : work b with
  | error e b₁ => simpa [after, Work.cleaning, hw] using h.of_error hw
  | ok a b₁ => simpa [after, Work.cleaning, hw] using h.of_ok hw

end PassTuner.Work
