import Errand.Board.Audit
import Errand.Scenario

namespace Errand

inductive ReclaimReason where
  | executorTerminated (unit : UnitId)
  | programFailed (cause : ProgramError)
  deriving DecidableEq, Repr

def ReclaimReason.message : ReclaimReason → String
  | executorTerminated u => u.text ++ " terminated"
  | programFailed e => e.message

structure Report where
  executed : Nat := 0
  finished : List TaskId := []
  reclaimed : List (TaskId × ReclaimReason) := []
  output : List (TaskId × UnitId × String) := []
  deriving DecidableEq, Repr

structure Simulation (ω ρ : Type) where
  board : Board
  world : ω
  source : ρ

abbrev SimM (ω ρ : Type) := EStateM BoardError (Simulation ω ρ)

namespace Simulation

variable {ω ρ : Type}

def onBoard (x : BoardM α) : SimM ω ρ α := fun sim ↦
  match x sim.board with
  | .ok a board => .ok a { sim with board }
  | .error e board => .error e { sim with board }

section Tick

variable [World ω] [Chance ρ]

def runProgram (t : TaskId) (actor : Actor) (p : Program) :
    SimM ω ρ (Except ProgramError Status × List String) := fun sim ↦
  let step := p.advance sim.board.execution.tickBudget.toNat actor sim.world sim.source
  let (lines, program) := step.program.collect
  let tasks := sim.board.tasks.modify t ({ · with program := some program })
  .ok (step.result, lines)
    { board := { sim.board with tasks }, world := step.world, source := step.source }

def reclaim (report : Report) (s : PoolId) (t : TaskId) (why : ReclaimReason) :
    SimM ω ρ Report := do
  discard (onBoard (Board.reclaim s t))
  return { report with reclaimed := report.reclaimed ++ [(t, why)] }

/-- What becomes of a task after its program has run. -/
def settle (report : Report) (s : PoolId) (t : TaskId) :
    Except ProgramError Status → SimM ω ρ Report
  | .ok .finished => do
    onBoard (Board.terminate t)
    return { report with finished := report.finished ++ [t] }
  | .ok (.suspended _) => return report
  | .ok .stopped => reclaim report s t (.programFailed .stopped)
  | .error e => reclaim report s t (.programFailed e)

def runTask (report : Report) (s : PoolId) (t : TaskId) : SimM ω ρ Report := do
  let task ← onBoard (Board.getTask t)
  match task.executor with
  | none => throw (.integrity (.assignedWithoutExecutor t))
  | some u =>
    if World.terminated (← get).world u then reclaim report s t (.executorTerminated u)
    else
      match task.program with
      | none => throw (.integrity (.assignedWithoutProgram t))
      | some p =>
        let (result, lines) ← runProgram t ⟨u, task.selected⟩ p
        let output := report.output ++ lines.map (t, u, ·)
        settle { report with executed := report.executed + 1, output } s t result

/-- One tick of every task that is assigned at its start. -/
def tick : SimM ω ρ Report := do
  (← get).board.assignments.foldlM (fun report (s, t) ↦ runTask report s t) {}

end Tick

section Rounds

variable [Chance ρ]

/-- Gives tasks to the idle units of each pool's faction. -/
def dispatchAll : SimM Grid ρ (List (UnitId × TaskId)) := do
  let taken ← (← get).board.poolIds.mapM fun (s, f) ↦ do
    onBoard (Board.dispatch s ((← get).world.living f))
  return taken.flatten

/-- Hands out tasks, runs them for a tick and lets the grid make a step. -/
def turn : SimM Grid ρ (List (UnitId × TaskId) × Report) := do
  let taken ← dispatchAll
  let report ← tick
  modify fun sim ↦ { sim with world := sim.world.step }
  return (taken, report)

def audit : SimM ω ρ Unit := do
  match (← get).board.audit with
  | .ok () => return
  | .error fault => throw (.integrity fault)

def sweep : SimM ω ρ (List (TaskId × Task)) :=
  modifyGet fun sim ↦
    let (ended, board) := sim.board.removeEnded
    (ended, { sim with board })

structure Round where
  taken : List (UnitId × TaskId)
  report : Report
  ended : List (TaskId × Task)

/-- A turn, after which ended tasks leave the board and the board is audited. -/
def round : SimM Grid ρ Round := do
  let (taken, report) ← turn
  let ended ← sweep
  audit
  return { taken, report, ended }

end Rounds

end Simulation

end Errand
