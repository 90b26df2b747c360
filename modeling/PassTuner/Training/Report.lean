import PassTuner.Training.Trainer
import PassTuner.Json.Writer

/-!
# Reports as JSON
-/

namespace PassTuner

def ProgramResult.toJson (r : ProgramResult) : Json :=
  .ofFields [("program", .ofText r.program), ("speedup", .ofFloat r.speedup),
    ("steps", .ofNat r.steps), ("flags", .array (r.flags.map Json.ofText)),
    ("first_step_failed", .boolean r.firstStepFailed)]

def Evaluation.toJson (e : Evaluation) : Json :=
  .ofFields [("episode", .ofNat e.episode), ("mean_speedup", .ofFloat e.meanSpeedup),
    ("programs", .array (e.programs.map ProgramResult.toJson))]

def TrainingReport.toJson (r : TrainingReport) : Json :=
  .ofFields [("episodes", .ofNat r.episodes), ("gradient_steps", .ofNat r.gradientSteps),
    ("final_epsilon", .ofFloat r.finalEpsilon), ("losses", .array (r.losses.map Json.ofFloat32)),
    ("evaluations", .array (r.evaluations.map Evaluation.toJson))]

end PassTuner
