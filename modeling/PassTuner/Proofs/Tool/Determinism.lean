import PassTuner.Proofs.Disk.Agreement
import PassTuner.Proofs.Program.Work
import PassTuner.Proofs.Tool.Pure
import PassTuner.Tool.Playback

/-!
# Deterministic tools

Two computations are in step if they come to related answers or to the same error from any two
related states, and leave related states. What two worlds have in common is a region of their disks,
what the tools remember and, where time matters, how much later it is in the second. A toolchain is
deterministic if its calls are in step on all worlds that have this in common. Main statement: tools
that work by functions are deterministic, and so are tools that always play back the same.
-/

namespace EStateM

variable {ε S T α β γ δ : Type} {J : S → T → Prop} {A : α → β → Prop} {B : γ → δ → Prop}
  {x : EStateM ε S α} {y : EStateM ε T β} {f : α → EStateM ε S γ} {g : β → EStateM ε T δ}
  {s : S} {t : T}

/-- Two ends with related answers or the same error, in related states. -/
inductive Result.Matched (J : S → T → Prop) (A : α → β → Prop) :
    Result ε S α → Result ε T β → Prop where
  | ok {a : α} {b : β} {s : S} {t : T} (answers : A a b) (states : J s t) :
    Matched J A (.ok a s) (.ok b t)
  | error (e : ε) {s : S} {t : T} (states : J s t) : Matched J A (.error e s) (.error e t)

/-- Computations with ends that match from any two related states on. -/
def InStep (J : S → T → Prop) (A : α → β → Prop) (x : EStateM ε S α) (y : EStateM ε T β) : Prop :=
  ∀ s t, J s t → (x s).Matched J A (y t)

theorem Result.Matched.bind (first : (x s).Matched J A (y t))
    (second : ∀ a b s' t', x s = .ok a s' → A a b → J s' t' → (f a s').Matched J B (g b t')) :
    ((x >>= f) s).Matched J B ((y >>= g) t) := by
  cases hx : x s with
  | error e s' =>
    cases hy : y t with
    | error e' t' =>
      rw [hx, hy] at first
      cases first with
      | error _ states =>
        rw [bind_of_error hx, bind_of_error hy]
        exact .error e states
    | ok b t' =>
      rw [hx, hy] at first
      cases first
  | ok a s' =>
    cases hy : y t with
    | error e' t' =>
      rw [hx, hy] at first
      cases first
    | ok b t' =>
      rw [hx, hy] at first
      cases first with
      | ok answers states =>
        rw [bind_of_ok hx, bind_of_ok hy]
        exact second a b s' t' hx answers states

theorem inStep_pure {a : α} {b : β} (h : A a b) :
    InStep J A (pure a : EStateM ε S α) (pure b : EStateM ε T β) := fun _ _ hj => .ok h hj

theorem inStep_throw (e : ε) : InStep J A (throw e : EStateM ε S α) (throw e : EStateM ε T β) :=
  fun _ _ hj => .error e hj

theorem InStep.bind (first : InStep J A x y) (second : ∀ a b, A a b → InStep J B (f a) (g b)) :
    InStep J B (x >>= f) (y >>= g) :=
  fun s t hj => (first s t hj).bind fun a b s' t' _ hab hj' => second a b hab s' t' hj'

end EStateM

namespace PassTuner

open EStateM (InStep)

variable {σ : Type}

/-- Two times with a lag between them, if there is to be one. -/
def Lags (lag : Option Int) (n n' : Nat) : Prop := ∀ δ ∈ lag, (n' : Int) = n + δ

theorem Lags.add {lag : Option Int} {n n' : Nat} (h : Lags lag n n') (k : Nat) :
    Lags lag (n + k) (n' + k) := by
  intro δ hδ
  have := h δ hδ
  omega

/-- What two worlds have in common. -/
structure Common (σ : Type) extends Disk.Region where
  /-- How much later it is in the second world, if time matters. -/
  lag : Option Int
  /-- How the memories of the tools are related. -/
  memories : σ → σ → Prop

/-- Two worlds do have it in common. -/
structure World.Share (c : Common σ) (w w' : World σ) : Prop where
  disk : Disk.Agree c.toRegion w.disk w'.disk
  clock : Lags c.lag w.clock w'.clock
  tools : c.memories w.tools w'.tools

section Share

variable {c : Common σ} {w w' : World σ}

theorem World.Share.rewritten (h : Share c w w') {d d' : Disk} (hd : Disk.Agree c.toRegion d d') :
    Share c { w with disk := d } { w' with disk := d' } := ⟨hd, h.clock, h.tools⟩

theorem World.Share.later (h : Share c w w') (k : Nat) :
    Share c { w with clock := w.clock + k } { w' with clock := w'.clock + k } :=
  ⟨h.disk, h.clock.add k, h.tools⟩

end Share

/-- A call with some paths gives the same output or error on worlds that share what is on their
ways, and leaves them sharing it. -/
def Tool.Deterministic {α : Type} (c : Common σ) (paths : List String) (t : Tool σ α) : Prop :=
  (∀ path ∈ paths, c.Covers path) → InStep (World.Share c) Eq t t

/-- What calls come to on worlds that share something is decided by what is shared. -/
structure Toolchain.Deterministic (c : Common σ) (tc : Toolchain σ) : Prop where
  transform : ∀ flag input output,
    Tool.Deterministic c [input, output] (tc.transform flag input output)
  compile : ∀ input output, Tool.Deterministic c [input, output] (tc.compile input output)
  link : ∀ input output, Tool.Deterministic c [input, output] (tc.link input output)
  measure : ∀ executable, Tool.Deterministic c [executable] (tc.measure executable)

namespace Tool

variable {c : Common σ} {path : String}

theorem inStep_read (hc : c.Covers path) :
    InStep (World.Share c) Eq (read path : Tool σ ByteArray) (read path) := by
  intro w w' hw
  unfold read
  rw [hw.disk.read hc]
  cases w.disk.read path with
  | ok content => exact .ok rfl hw
  | error e => exact .error _ hw

theorem inStep_write (hc : c.Covers path) (content : ByteArray) :
    InStep (World.Share c) Eq (write path content : Tool σ Unit) (write path content) := by
  intro w w' hw
  have hwrite := hw.disk.write hc content
  unfold write
  generalize w.disk.write path content = r, w'.disk.write path content = r' at hwrite
  cases hwrite with
  | ok disks => exact .ok rfl (hw.rewritten disks)
  | error e => exact .error _ hw

end Tool

namespace PureTools

variable {c : Common Unit}

theorem deterministic_call (c : Common Unit) (f : ByteArray → Except CallFailure ByteArray)
    (input output : String) : Tool.Deterministic c [input, output] (call f input output) := by
  intro hc
  have hinput := hc input (by simp)
  have houtput := hc output (by simp)
  refine (Tool.inStep_read hinput).bind fun content _ heq => ?_
  subst heq
  cases f content with
  | ok made => exact (Tool.inStep_write houtput made).bind fun _ _ _ => EStateM.inStep_pure rfl
  | error failure =>
    cases failure with
    | refused o failed => exact EStateM.inStep_pure rfl
    | broken cause => exact EStateM.inStep_throw cause

/-- Tools that work by functions are deterministic. -/
theorem deterministic (T : PureTools) (c : Common Unit) : T.toolchain.Deterministic c where
  transform flag := deterministic_call c (T.transform flag)
  compile := deterministic_call c T.compile
  link := deterministic_call c T.link
  measure executable := by
    intro hc
    refine (Tool.inStep_read (hc executable (by simp))).bind fun content _ heq => ?_
    subst heq
    cases T.measure content with
    | ok o => exact EStateM.inStep_pure rfl
    | error cause => exact EStateM.inStep_throw cause

end PureTools

namespace Playback

variable {c : Common Calls} {replies : List Reply}

theorem replyAt_of_length (h : replies.length ≤ 1) (n : Nat) :
    replyAt replies n = replyAt replies 0 := by
  unfold replyAt
  rw [show min n (replies.length - 1) = min 0 (replies.length - 1) by omega]

theorem inStep_copy {input output : String} (hinput : c.Covers input) (houtput : c.Covers output)
    (more : ByteArray) :
    InStep (World.Share c) Eq (copy input output more : Tool Calls Unit)
      (copy input output more) := by
  refine (Tool.inStep_read hinput).bind fun content _ heq => ?_
  subst heq
  exact Tool.inStep_write houtput _

theorem inStep_answer (forgetful : ∀ m m', c.memories m m') (h : replies.length ≤ 1)
    (calls : Calls → Nat) (count : Calls → Calls) {work : Tool Calls Unit}
    (hwork : InStep (World.Share c) Eq work work) :
    InStep (World.Share c) Eq (answer replies calls count work)
      (answer replies calls count work) := by
  have counted : InStep (World.Share c) Eq
      (modify fun w => { w with tools := count w.tools } : Tool Calls Unit)
      (modify fun w => { w with tools := count w.tools }) :=
    fun _ _ hw => .ok rfl ⟨hw.disk, hw.clock, forgetful _ _⟩
  have recalled : InStep (World.Share c) (fun _ _ => True) (get : Tool Calls (World Calls)) get :=
    fun _ _ hw => .ok trivial hw
  refine recalled.bind fun w w' _ => counted.bind fun _ _ _ => ?_
  rw [replyAt_of_length h (calls w.tools), replyAt_of_length h (calls w'.tools)]
  cases replyAt replies 0 with
  | spawnFailure program => exact EStateM.inStep_throw _
  | output o =>
    dsimp only
    split
    · exact hwork.bind fun _ _ _ => EStateM.inStep_pure rfl
    · exact EStateM.inStep_pure rfl

/-- Tools that always play back the same are deterministic, whatever they remember. -/
theorem deterministic {p : Playback} (forgetful : ∀ m m', c.memories m m')
    (transform : p.transform.length ≤ 1) (compile : p.compile.length ≤ 1)
    (link : p.link.length ≤ 1) (measure : p.measure.length ≤ 1) :
    p.toolchain.Deterministic c where
  transform flag input output hc :=
    inStep_answer forgetful transform Calls.transforms
      (fun c => { c with transforms := c.transforms + 1 })
      (inStep_copy (hc input (by simp)) (hc output (by simp)) s!"; applied {flag}\n".toUTF8)
  compile input output hc :=
    inStep_answer forgetful compile Calls.compiles (fun c => { c with compiles := c.compiles + 1 })
      (inStep_copy (hc input (by simp)) (hc output (by simp)) .empty)
  link input output hc :=
    inStep_answer forgetful link Calls.links (fun c => { c with links := c.links + 1 })
      (inStep_copy (hc input (by simp)) (hc output (by simp)) .empty)
  measure _ _ :=
    inStep_answer forgetful measure Calls.measures (fun c => { c with measures := c.measures + 1 })
      (EStateM.inStep_pure rfl)

end Playback

end PassTuner
