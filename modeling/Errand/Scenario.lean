import Errand.Board.Basic
import Errand.Definition.Scenario
import Errand.Error

namespace Errand

def Grid.recruit (g : Grid) (u : Recruit) : Except GridError Grid := do
  let g ← g.station u.id u.faction u.position
  return g.modifyUnit u.id ({ · with carried := u.carries, health := u.health.toNat })

def Grid.ofScenario (s : Scenario) (settings : SandboxSettings) : Except GridError Grid := do
  let g ← s.solid.foldlM Grid.fill (Grid.ofSettings settings)
  let g ← s.resources.foldlM (fun g r ↦ g.deposit r.kind r.position) g
  s.units.foldlM Grid.recruit g

/-- The factions that offer a task for which `fs` are listed. -/
def Grid.audience (g : Grid) (fs : List FactionId) : List FactionId :=
  if fs.isEmpty then g.factions else fs

namespace Scenario

/-- All tasks of a scenario, if all of them may run. -/
def readyTasks (s : Scenario) (defaultPriority : Int32) :
    Except ScriptError (List (Task × List FactionId)) :=
  s.tasks.mapM fun entry ↦ do
    return (← Task.ofSpec entry.task defaultPriority, entry.factions)

def ensurePool (f : FactionId) : BoardM PoolId := do
  match (← get).poolOf? f with
  | some s => return s
  | none => Board.addPool f

def enlist (t : TaskId) (task : Task) (factions : List FactionId) : BoardM TaskId := do
  Board.putTask t task
  factions.forM fun f ↦ do
    Board.schedule (← ensurePool f) t
  return t

def onBoard (x : BoardM α) : EStateM Error Board α := fun b ↦
  match x b with
  | .ok a b => .ok a b
  | .error e b => .error (.board e) b

/-- Makes a pool for every faction of the grid and puts the tasks of the scenario on the board, the
first one under `number 0`. What was done before a failure stays done. -/
def post (s : Scenario) (g : Grid) (number : Nat → TaskId) : EStateM Error Board (List TaskId) := do
  onBoard (g.factions.forM fun f ↦ discard (ensurePool f))
  match s.readyTasks (← get).scheduler.defaultPriority with
  | .error e => throw (.script e)
  | .ok tasks =>
    onBoard <| tasks.zipIdx.mapM fun ((task, factions), i) ↦
      enlist (number i) task (g.audience factions)

end Scenario

end Errand
