import Errand.Json.Basic
import Errand.Settings

namespace Errand

namespace ExecutionSettings

def toJson (s : ExecutionSettings) : Json :=
  .obj [("tick_budget", .ofUInt32 s.tickBudget), ("max_output_lines", .ofUInt64 s.maxOutputLines)]

def ofJson? (j : Json) : Option ExecutionSettings := do
  j.atMost 2
  return {
    tickBudget := ← j.orElse 0 "tick_budget" 10 Json.uint32?
    maxOutputLines := ← j.orElse 1 "max_output_lines" 256 Json.uint64? }

end ExecutionSettings

namespace SchedulerSettings

def toJson (s : SchedulerSettings) : Json :=
  .obj [("default_priority", .ofInt32 s.defaultPriority),
    ("backoff_numerator", .ofInt32 s.backoffNumerator),
    ("backoff_denominator", .ofInt32 s.backoffDenominator)]

def ofJson? (j : Json) : Option SchedulerSettings := do
  j.atMost 3
  return {
    defaultPriority := ← j.orElse 0 "default_priority" 0 Json.int32?
    backoffNumerator := ← j.orElse 1 "backoff_numerator" 3 Json.int32?
    backoffDenominator := ← j.orElse 2 "backoff_denominator" 4 Json.int32? }

end SchedulerSettings

namespace SandboxSettings

def toJson (s : SandboxSettings) : Json :=
  .obj [("width", .ofInt32 s.width), ("depth", .ofInt32 s.depth), ("height", .ofInt32 s.height),
    ("work_ticks", .ofUInt32 s.workTicks), ("seed", .ofUInt64 s.seed)]

def ofJson? (j : Json) : Option SandboxSettings := do
  j.atMost 5
  return {
    width := ← j.orElse 0 "width" 16 Json.int32?
    depth := ← j.orElse 1 "depth" 16 Json.int32?
    height := ← j.orElse 2 "height" 4 Json.int32?
    workTicks := ← j.orElse 3 "work_ticks" 3 Json.uint32?
    seed := ← j.orElse 4 "seed" 0 Json.uint64? }

end SandboxSettings

namespace Settings

def toJson (s : Settings) : Json :=
  .obj [("execution", s.execution.toJson), ("scheduler", s.scheduler.toJson),
    ("sandbox", s.sandbox.toJson)]

def ofJson? (j : Json) : Option Settings := do
  j.atMost 3
  return {
    execution := ← j.orElse 0 "execution" {} ExecutionSettings.ofJson?
    scheduler := ← j.orElse 1 "scheduler" {} SchedulerSettings.ofJson?
    sandbox := ← j.orElse 2 "sandbox" {} SandboxSettings.ofJson? }

end Settings

end Errand
