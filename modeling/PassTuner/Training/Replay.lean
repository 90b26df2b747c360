import PassTuner.Training.Error
import PassTuner.Variant.Episode
import PassTuner.Random.Subset

/-!
# The replay buffer

Holds at most `capacity` transitions. An episode that would not fit makes room by evicting entries
at random, and an episode longer than the whole buffer keeps its end. A sample is a row of
transitions at distinct positions, which stay or are taken out. Main statement: the buffer is never
overfull.
-/

namespace PassTuner

/-- What becomes of sampled transitions. -/
inductive SamplingPolicy where
  | retain
  | drain
  deriving DecidableEq, Repr

namespace SamplingPolicy

def name : SamplingPolicy → String
  | retain => "retain"
  | drain => "drain"

def ofName? (name : String) : Option SamplingPolicy :=
  if name = "retain" then some retain else if name = "drain" then some drain else none

def toJson (p : SamplingPolicy) : Json := .ofText p.name

/-- A policy is written by its name, alone or as the one name of an object that gives it no content.
-/
def ofJson? : Json → Option SamplingPolicy
  | .string quoted => do ofName? (String.ofList (← Json.unescape? quoted))
  | .object [(quoted, .null)] => do ofName? (String.ofList (← Json.unescape? quoted))
  | _ => none

end SamplingPolicy

/-- A list with the entry at a position replaced by the last one, which leaves its own place. -/
def swapRemove (xs : List α) (i : Nat) : List α :=
  match xs.getLast? with
  | none => []
  | some last => (xs.set i last).dropLast

@[simp] theorem length_swapRemove (xs : List α) (i : Nat) :
    (swapRemove xs i).length = xs.length - 1 := by
  unfold swapRemove
  split
  · rename_i h; simp [List.getLast?_eq_none_iff.1 h]
  · simp

structure Replay where
  capacity : Nat
  policy : SamplingPolicy
  entries : List Transition

namespace Replay

def new (capacity : Nat) (policy : SamplingPolicy) : Replay := ⟨capacity, policy, []⟩

def length (b : Replay) : Nat := b.entries.length

def isEmpty (b : Replay) : Bool := b.entries.isEmpty

def isFull (b : Replay) : Bool := b.length == b.capacity

/-- The last `n` entries of a list. -/
def lastOf (n : Nat) (xs : List α) : List α := xs.drop (xs.length - n)

theorem length_lastOf_le (n : Nat) (xs : List α) : (lastOf n xs).length ≤ n := by
  simp only [lastOf, List.length_drop]
  omega

/-- Entries with so many of them removed at random. -/
def evict : (n : Nat) → (entries : List Transition) → n ≤ entries.length → Rng →
    List Transition × Rng
  | 0, entries, _, r => (entries, r)
  | n + 1, entries, h, r =>
    let drawn := r.below entries.length (by omega)
    evict n (swapRemove entries drawn.1) (by rw [length_swapRemove]; omega) drawn.2

theorem length_evict {n : Nat} {entries : List Transition} (h : n ≤ entries.length) (r : Rng) :
    (evict n entries h r).1.length = entries.length - n := by
  induction n generalizing entries r with
  | zero => rfl
  | succ n ih => simp only [evict, ih, length_swapRemove]; omega

/-- Making room for the end of an episode never takes more entries than there are. -/
theorem overflow_le (b : Replay) (incoming : List α) :
    b.length + (lastOf b.capacity incoming).length - b.capacity ≤ b.length := by
  have := length_lastOf_le b.capacity incoming
  omega

/-- The buffer with the transitions of an episode. -/
def push (b : Replay) (e : Episode) (r : Rng) : Replay × Rng :=
  let incoming := lastOf b.capacity e.transitions
  if incoming = [] ∨ b.capacity = 0 then (b, r)
  else
    let kept := evict (b.length + incoming.length - b.capacity) b.entries (overflow_le b _) r
    ({ b with entries := kept.1 ++ incoming }, kept.2)

/-- Entries without those at the given positions, which are taken out from the last one on, and the
ones that were taken out. -/
def takeOut : List Nat → List Transition → List Transition × List Transition
  | [], entries => ([], entries)
  | i :: rest, entries =>
    let taken := takeOut rest (swapRemove entries i)
    ((entries[i]?).toList ++ taken.1, taken.2)

/-- A random sample, as large as asked for if there is enough. -/
def sample (b : Replay) (batchSize : Nat) (r : Rng) :
    Except TrainingError (List Transition × Replay × Rng) :=
  if b.capacity ≤ batchSize then .error (.batchTooLarge batchSize b.capacity)
  else
    let picked := r.subset b.length (min batchSize b.length) (Nat.min_le_right _ _)
    match b.policy with
    | .retain => .ok (picked.1.filterMap (b.entries[·]?), b, picked.2)
    | .drain =>
      let taken := takeOut (picked.1.mergeSort fun i j => decide (j ≤ i)) b.entries
      .ok (taken.1, { b with entries := taken.2 }, picked.2)

theorem length_push_le (b : Replay) (h : b.length ≤ b.capacity) (e : Episode) (r : Rng) :
    (b.push e r).1.length ≤ b.capacity := by
  simp only [push]
  split
  · exact h
  · have hin := length_lastOf_le b.capacity e.transitions
    simp only [length, List.length_append, length_evict] at h ⊢
    omega

end Replay

end PassTuner
