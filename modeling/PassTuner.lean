import PassTuner.Cache.Basic
import PassTuner.Cache.Manifest
import PassTuner.Catalog.Basic
import PassTuner.Catalog.Listing
import PassTuner.CommandLine.Options
import PassTuner.CommandLine.Request
import PassTuner.CommandLine.Run
import PassTuner.CommandLine.Settings
import PassTuner.Digest.Blake3
import PassTuner.Disk.Access
import PassTuner.Disk.Basic
import PassTuner.Disk.Path
import PassTuner.Environment.Error
import PassTuner.Json.Reader
import PassTuner.Json.Record
import PassTuner.Json.Value
import PassTuner.Json.Writer
import PassTuner.Main
import PassTuner.Measurement.Record
import PassTuner.Network.Adam
import PassTuner.Network.Basic
import PassTuner.Network.Gradient
import PassTuner.Network.Storage
import PassTuner.Number.Binary
import PassTuner.Number.Literal
import PassTuner.Number.Notation
import PassTuner.Number.Scaling
import PassTuner.Number.Shortest
import PassTuner.Program.Basic
import PassTuner.Program.Build
import PassTuner.Program.Measure
import PassTuner.Program.Pool
import PassTuner.Program.Step
import PassTuner.Proofs.Cache.Checking
import PassTuner.Proofs.Cache.Layout
import PassTuner.Proofs.Cache.Lookups
import PassTuner.Proofs.Cache.Persistence
import PassTuner.Proofs.Cache.Records
import PassTuner.Proofs.Cache.Reopening
import PassTuner.Proofs.Cache.Scratch
import PassTuner.Proofs.Cache.Site
import PassTuner.Proofs.Cache.Soundness
import PassTuner.Proofs.Catalog.Keeping
import PassTuner.Proofs.Catalog.Sections
import PassTuner.Proofs.Disk.Agreement
import PassTuner.Proofs.Disk.Changes
import PassTuner.Proofs.Disk.FreeName
import PassTuner.Proofs.Disk.Paths
import PassTuner.Proofs.Json.RoundTrip
import PassTuner.Proofs.Measurement.Framing
import PassTuner.Proofs.Measurement.Printing
import PassTuner.Proofs.Network.Counter
import PassTuner.Proofs.Network.Loading
import PassTuner.Proofs.Number.Arithmetic
import PassTuner.Proofs.Number.Doubles
import PassTuner.Proofs.Number.Order
import PassTuner.Proofs.Number.Packing
import PassTuner.Proofs.Number.Powers
import PassTuner.Proofs.Number.Rounding
import PassTuner.Proofs.Number.Scaling
import PassTuner.Proofs.Number.Shares
import PassTuner.Proofs.Number.Shortest
import PassTuner.Proofs.Number.Signs
import PassTuner.Proofs.Number.Zeros
import PassTuner.Proofs.Program.Accord
import PassTuner.Proofs.Program.Building
import PassTuner.Proofs.Program.Corruption
import PassTuner.Proofs.Program.Counting
import PassTuner.Proofs.Program.Ensuring
import PassTuner.Proofs.Program.Failing
import PassTuner.Proofs.Program.Lifecycle
import PassTuner.Proofs.Program.Measuring
import PassTuner.Proofs.Program.Opening
import PassTuner.Proofs.Program.Preparing
import PassTuner.Proofs.Program.Preserving
import PassTuner.Proofs.Program.Rebuilding
import PassTuner.Proofs.Program.Recording
import PassTuner.Proofs.Program.Retrying
import PassTuner.Proofs.Program.Separation
import PassTuner.Proofs.Program.Stocking
import PassTuner.Proofs.Program.Twins
import PassTuner.Proofs.Program.Work
import PassTuner.Proofs.Random.Subsets
import PassTuner.Proofs.Session.Cacheless
import PassTuner.Proofs.Session.Events
import PassTuner.Proofs.Session.Invariants
import PassTuner.Proofs.Session.Littering
import PassTuner.Proofs.Session.Provenance
import PassTuner.Proofs.Session.Refinement
import PassTuner.Proofs.Session.Restoring
import PassTuner.Proofs.Session.Reusing
import PassTuner.Proofs.Session.Vocabulary
import PassTuner.Proofs.Text.Lines
import PassTuner.Proofs.Text.Replacing
import PassTuner.Proofs.Tool.Conduct
import PassTuner.Proofs.Tool.Determinism
import PassTuner.Proofs.Tool.Interrupting
import PassTuner.Proofs.Tool.Logging
import PassTuner.Proofs.Tool.Noting
import PassTuner.Proofs.Tool.Pure
import PassTuner.Proofs.Tool.Remarks
import PassTuner.Proofs.Tool.Rendering
import PassTuner.Proofs.Tool.Simulated
import PassTuner.Proofs.Training.Acts
import PassTuner.Proofs.Training.Buffer
import PassTuner.Proofs.Training.Calls
import PassTuner.Proofs.Training.Comparing
import PassTuner.Proofs.Training.Conservation
import PassTuner.Proofs.Training.Crews
import PassTuner.Proofs.Training.Evaluating
import PassTuner.Proofs.Training.Failures
import PassTuner.Proofs.Training.Greatest
import PassTuner.Proofs.Training.Keeping
import PassTuner.Proofs.Training.Learning
import PassTuner.Proofs.Training.Moves
import PassTuner.Proofs.Training.Ranges
import PassTuner.Proofs.Training.Returning
import PassTuner.Proofs.Training.Rollouts
import PassTuner.Proofs.Training.Rotas
import PassTuner.Proofs.Training.Rounds
import PassTuner.Proofs.Training.Selections
import PassTuner.Proofs.Training.Speedups
import PassTuner.Proofs.Training.Splitting
import PassTuner.Proofs.Training.Staying
import PassTuner.Proofs.Training.Stemming
import PassTuner.Proofs.Training.Syncing
import PassTuner.Proofs.Training.Timetable
import PassTuner.Proofs.Training.Turns
import PassTuner.Proofs.Variant.Coding
import PassTuner.Random.Draw
import PassTuner.Random.Stream
import PassTuner.Random.Subset
import PassTuner.Shell.Arithmetic
import PassTuner.Shell.Condition
import PassTuner.Shell.Pattern
import PassTuner.Shell.Printing
import PassTuner.Shell.Programs
import PassTuner.Shell.Reader
import PassTuner.Shell.Run
import PassTuner.Shell.State
import PassTuner.Shell.Syntax
import PassTuner.Text.Blank
import PassTuner.Text.Lines
import PassTuner.Text.Search
import PassTuner.Text.Utf8
import PassTuner.Tool.Command
import PassTuner.Tool.Output
import PassTuner.Tool.Playback
import PassTuner.Tool.Settings
import PassTuner.Tool.Simulation
import PassTuner.Tool.Template
import PassTuner.Tool.Toolchain
import PassTuner.Training.Approximator
import PassTuner.Training.Error
import PassTuner.Training.Greedy
import PassTuner.Training.Replay
import PassTuner.Training.Report
import PassTuner.Training.Rollout
import PassTuner.Training.Run
import PassTuner.Training.Settings
import PassTuner.Training.Trainer
import PassTuner.Variant.Cost
import PassTuner.Variant.Episode
import PassTuner.Variant.Key
import PassTuner.Variant.Observation
import PassTuner.Proofs.Session.Reported
import PassTuner.Proofs.Session.Simulating
import PassTuner.Proofs.Json.Numbers
import PassTuner.Proofs.Network.Saving
