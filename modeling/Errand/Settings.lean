namespace Errand

structure ExecutionSettings where
  tickBudget : UInt32 := 10
  maxOutputLines : UInt64 := 256
  deriving DecidableEq, Repr, Inhabited

structure SchedulerSettings where
  defaultPriority : Int32 := 0
  backoffNumerator : Int32 := 3
  backoffDenominator : Int32 := 4
  deriving DecidableEq, Repr, Inhabited

structure SandboxSettings where
  width : Int32 := 16
  depth : Int32 := 16
  height : Int32 := 4
  /-- Ticks that a unit works on a cube. -/
  workTicks : UInt32 := 3
  seed : UInt64 := 0
  deriving DecidableEq, Repr, Inhabited

structure Settings where
  execution : ExecutionSettings := {}
  scheduler : SchedulerSettings := {}
  sandbox : SandboxSettings := {}
  deriving DecidableEq, Repr, Inhabited

inductive SettingsError where
  | noBudget
  | backoffNotBelowOne (numerator denominator : Int32)
  | noExtent
  deriving DecidableEq, Repr

def SettingsError.message : SettingsError → String
  | noBudget => "execution.tick_budget must be positive"
  | backoffNotBelowOne n d =>
    "scheduler backoff " ++ toString n.toInt ++ "/" ++ toString d.toInt ++
      " must be a fraction below one"
  | noExtent => "sandbox dimensions must be positive"

/-- Refuses settings under which no program would run, priorities would not fall or the world would
have no cubes along some axis. An extent is refused only when it is zero. -/
def Settings.check (s : Settings) : Except SettingsError Unit := do
  if s.execution.tickBudget = 0 then
    throw .noBudget
  let n := s.scheduler.backoffNumerator
  let d := s.scheduler.backoffDenominator
  if d ≤ 0 ∨ n < 0 ∨ d ≤ n then
    throw (.backoffNotBelowOne n d)
  if s.sandbox.width = 0 ∨ s.sandbox.depth = 0 ∨ s.sandbox.height = 0 then
    throw .noExtent

end Errand
