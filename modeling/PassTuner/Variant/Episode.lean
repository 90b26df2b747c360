import PassTuner.Variant.Key
import PassTuner.Variant.Observation
import PassTuner.Json.Record

/-!
# Transitions and episodes

An episode is a walk from one observation to the next. It is stored as its observations and its
steps; a walk that was recorded step by step has one observation more than steps, and then
decomposes into exactly as many transitions as it has steps.
-/

namespace PassTuner

/-- One step seen from both of its ends. -/
structure Transition where
  state : Observation
  action : ActionId
  reward : Float
  next : Observation

structure Episode where
  /-- The observation before each step, and the last one. -/
  states : List Observation
  steps : List (ActionId × Float)

def actionJson (a : ActionId) : Json := .ofNat a.toNat

def actionOfJson? (j : Json) : Option ActionId := (j.nat? 16).map UInt16.ofNat

namespace Transition

def toJson (t : Transition) : Json :=
  .ofFields [("state", t.state.toJson), ("action", actionJson t.action),
    ("reward", .ofFloat t.reward), ("next_state", t.next.toJson)]

def ofJson? (j : Json) : Option Transition := do
  let r ← j.record? ["state", "action", "reward", "next_state"]
  return {
    state := ← r.required "state" Observation.ofJson?
    action := ← r.required "action" actionOfJson?
    reward := ← r.required "reward" Json.float?
    next := ← r.required "next_state" Observation.ofJson? }

end Transition

namespace Episode

def start (o : Observation) : Episode := ⟨[o], []⟩

/-- One more step and where it led. -/
def record (e : Episode) (a : ActionId) (reward : Float) (next : Observation) : Episode :=
  ⟨e.states ++ [next], e.steps ++ [(a, reward)]⟩

def length (e : Episode) : Nat := e.steps.length

def isEmpty (e : Episode) : Bool := e.steps.isEmpty

def final? (e : Episode) : Option Observation := e.states.getLast?

def actions (e : Episode) : List ActionId := e.steps.map (·.1)

/-- The sum of the rewards from the left, starting at negative zero. -/
def totalReward (e : Episode) : Float := e.steps.foldl (fun sum step => sum + step.2) (-0.0)

/-- One transition for each step that has an observation on both sides. -/
def transitionsFrom : List Observation → List (ActionId × Float) → List Transition
  | state :: next :: states, (a, reward) :: steps =>
    ⟨state, a, reward, next⟩ :: transitionsFrom (next :: states) steps
  | _, _ => []

def transitions (e : Episode) : List Transition := transitionsFrom e.states e.steps

@[simp] theorem length_record (e : Episode) (a : ActionId) (x : Float) (o : Observation) :
    (e.record a x o).length = e.length + 1 := by simp [record, length]

def stepJson (step : ActionId × Float) : Json := .array [actionJson step.1, .ofFloat step.2]

def stepOfJson? : Json → Option (ActionId × Float)
  | .array [a, reward] => do return (← actionOfJson? a, ← reward.float?)
  | _ => none

def toJson (e : Episode) : Json :=
  .ofFields [("states", .array (e.states.map Observation.toJson)),
    ("steps", .array (e.steps.map stepJson))]

def ofJson? (j : Json) : Option Episode := do
  let r ← j.record? ["states", "steps"]
  return {
    states := ← r.required "states" (Json.list? Observation.ofJson?)
    steps := ← r.required "steps" (Json.list? stepOfJson?) }

end Episode

end PassTuner
