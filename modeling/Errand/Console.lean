import Errand.Format.Scenario
import Errand.Format.Settings
import Errand.Json.Parser
import Errand.Simulation
import Errand.Text.Column

namespace Errand.Console

inductive Request where
  | check
  | run (ticks : Nat) (budget : Option UInt32)
  deriving DecidableEq, Repr

def defaultTicks : Nat := 20

/-- Printing. Lines printed before a failure stay printed. -/
abbrev Session := EStateM Error (List String)

def print (line : String) : Session Unit := modify (· ++ [line])

def orFail (wrap : ε → Error) : Except ε α → Session α
  | .ok a => return a
  | .error e => throw (wrap e)

def readFile (decode : Json → Option α) : Option String → Session α
  | none => throw .unopened
  | some text =>
    match (Json.parse? text).bind decode with
    | some a => return a
    | none => throw .unreadableFile

/-- The settings of a file, or the default ones if there is no file. -/
def loadSettings (file : Option String) : Session Settings := do
  if file.isNone then return {}
  let settings ← readFile Settings.ofJson? file
  orFail .settings settings.check
  return settings

def check (settings : Settings) (file : Option String) : Session Unit := do
  let scenario ← readFile Scenario.ofJson? file
  let tasks ← orFail .script (scenario.readyTasks settings.scheduler.defaultPriority)
  tasks.forM fun (task, _) ↦
    print ("ok  " ++ task.name ++ " (priority " ++ toString task.priority.toInt ++ ", " ++
      toString task.script.size ++ " statements)")
  print (toString tasks.length ++ " task(s) checked")

def stamped (tick : Nat) (line : String) : String :=
  "[" ++ Text.padLeft 4 (toString tick) ++ "] " ++ line

def roundLines (before after : Board) (r : Simulation.Round) : List String :=
  r.taken.filterMap (fun (u, t) ↦
      before.tasks[t]?.map fun task ↦ u.text ++ " takes '" ++ task.name ++ "'") ++
    r.report.output.map (fun (_, u, line) ↦ u.text ++ ": " ++ line) ++
    r.report.reclaimed.filterMap (fun (t, why) ↦
      after.tasks[t]?.map fun task ↦ "'" ++ task.name ++ "' reclaimed (" ++ why.message ++
        "), priority now " ++ toString task.priority.toInt) ++
    r.ended.map (fun (_, task) ↦ "'" ++ task.name ++ "' finished")

/-- Runs rounds until no task is left, and not more than `left`. -/
def rounds [Chance ρ] : (left tick : Nat) → Simulation Grid ρ → Session (Simulation Grid ρ)
  | 0, _, sim => return sim
  | left + 1, tick, sim =>
    match Simulation.round sim with
    | .error e _ => throw (.board e)
    | .ok r after => do
      (roundLines sim.board after.board r).forM fun line ↦ print (stamped tick line)
      if after.board.tasks.isEmpty then
        print ("all tasks finished after " ++ toString tick ++ " tick(s)")
        return after
      else rounds left (tick + 1) after

def taskLine (task : Task) : String :=
  let state := match task.executor with
    | some u => "assigned to " ++ u.text
    | none => "available"
  "  " ++ Text.padRight 20 task.name ++ " priority " ++
    Text.padLeft 4 (toString task.priority.toInt) ++ "  " ++ state

def poolLines (b : Board) : List String :=
  b.poolIds.flatMap fun (s, f) ↦
    (s.text ++ " (" ++ f.text ++ "):") :: (b.tasksIn s).map fun (_, task) ↦ taskLine task

def withBudget (settings : Settings) : Option UInt32 → Session Settings
  | none => return settings
  | some budget => do
    let settings := { settings with execution.tickBudget := budget }
    orFail .settings settings.check
    return settings

/-- Runs a scenario, given where the numbers of its tasks come from and how a source is seeded. -/
def run [Chance ρ] (seeded : UInt64 → ρ) (number : Nat → TaskId) (settings : Settings) (ticks : Nat)
    (budget : Option UInt32) (file : Option String) : Session Unit := do
  let settings ← withBudget settings budget
  let scenario ← readFile Scenario.ofJson? file
  let world ← orFail .grid (Grid.ofScenario scenario settings.sandbox)
  let board ← orFail .settings (Board.ofSettings settings)
  match scenario.post world number board with
  | .error e _ => throw e
  | .ok _ board =>
    let sim ← rounds ticks 1 { board, world, source := seeded settings.sandbox.seed }
    (poolLines sim.board).forM print

def answer [Chance ρ] (seeded : UInt64 → ρ) (number : Nat → TaskId) (request : Request)
    (settingsFile scenarioFile : Option String) : Session Unit := do
  let settings ← loadSettings settingsFile
  match request with
  | .check => check settings scenarioFile
  | .run ticks budget => run seeded number settings ticks budget scenarioFile

end Errand.Console
