import Errand.Board.Backoff
import Errand.Board.Error
import Errand.Board.Pool
import Std.Data.TreeMap

namespace Errand

/-- Tasks and the pools that they are in. A pool lists the numbers of its tasks, and a task names its
pools. -/
structure Board where
  tasks : Std.TreeMap TaskId Task := ∅
  pools : List Pool := []
  execution : ExecutionSettings := {}
  scheduler : SchedulerSettings := {}

abbrev BoardM := EStateM BoardError Board

namespace Board

def ofSettings (s : Settings) : Except SettingsError Board := do
  s.check
  return { execution := s.execution, scheduler := s.scheduler }

def pool? (b : Board) (s : PoolId) : Option Pool := b.pools[s.val]?

def poolOf? (b : Board) (f : FactionId) : Option PoolId :=
  (b.pools.findIdx? (·.faction = f)).map PoolId.mk

def poolIds (b : Board) : List (PoolId × FactionId) :=
  b.pools.zipIdx.map fun (p, i) ↦ (⟨i⟩, p.faction)

def taskOf? (b : Board) (u : UnitId) : Option TaskId :=
  (b.tasks.toList.find? fun (_, t) ↦ t.executor = some u).map (·.1)

def contains (b : Board) (s : PoolId) (t : TaskId) : Bool := (b.pool? s).any (·.contains t)

def tasksIn (b : Board) (s : PoolId) : List (TaskId × Task) :=
  match b.pool? s with
  | none => []
  | some p => p.listed.filterMap fun t ↦ b.tasks[t]?.map (t, ·)

def highest? (b : Board) (s : PoolId) : Option TaskId := do
  let t ← (← b.pool? s).waiting.head?
  if b.tasks.contains t then some t else none

/-- Whether a waiting task stays before one of the given priority. -/
def staysAhead (b : Board) (priority : Int32) (t : TaskId) : Bool :=
  match b.tasks[t]? with
  | none => true
  | some task => priority ≤ task.priority

def assignments (b : Board) : List (PoolId × TaskId) :=
  b.pools.zipIdx.flatMap fun (p, i) ↦ p.assigned.map (⟨i⟩, ·)

def modifyTask (t : TaskId) (f : Task → Task) : BoardM Unit :=
  modify fun b ↦ { b with tasks := b.tasks.modify t f }

def modifyPool (s : PoolId) (f : Pool → Pool) : BoardM Unit :=
  modify fun b ↦ { b with pools := b.pools.modify s.val f }

def getTask (t : TaskId) : BoardM Task := do
  match (← get).tasks[t]? with
  | some task => return task
  | none => throw (.unknownTask t)

def getPool (s : PoolId) : BoardM Pool := do
  match (← get).pool? s with
  | some pool => return pool
  | none => throw (.unknownPool s)

def addPool (f : FactionId) : BoardM PoolId := do
  let b ← get
  if (b.poolOf? f).isSome then
    throw (.duplicateFaction f)
  modify fun b ↦ { b with pools := b.pools ++ [{ faction := f }] }
  return ⟨b.pools.length⟩

/-- Puts a task on the board, in place of the one that has its number. It is in no pool. -/
def putTask (t : TaskId) (task : Task) : BoardM Unit :=
  modify fun b ↦ { b with tasks := b.tasks.insert t task.unlinked }

/-- Lets a task wait in a pool, behind every task of equal or higher priority. -/
def schedule (s : PoolId) (t : TaskId) : BoardM Unit := do
  let task ← getTask t
  if task.terminated then
    throw (.taskTerminated t)
  let pool ← getPool s
  if pool.contains t || task.pools.contains s then
    throw (.alreadyScheduled t s)
  let ahead := (← get).staysAhead task.priority
  modifyPool s (·.enqueue ahead t)
  modifyTask t fun task ↦ { task with pools := task.pools.insert s }

/-- Takes a waiting task out of a pool. The answer is the place that it had there. -/
def unscheduleAt (s : PoolId) (t : TaskId) : BoardM Nat := do
  let pool ← getPool s
  if pool.assigned.contains t then
    throw (.taskAssigned t s)
  if !pool.waiting.contains t then
    throw (.notScheduled t s)
  modifyPool s (·.dequeue t)
  modifyTask t fun task ↦ { task with pools := task.pools.erase s }
  return pool.waiting.idxOf t

def unschedule (s : PoolId) (t : TaskId) : BoardM Unit := discard (unscheduleAt s t)

def requireIdle (u : UnitId) : BoardM Unit := do
  match (← get).taskOf? u with
  | some t => throw (.unitBusy u t)
  | none => return

def assign (s : PoolId) (t : TaskId) (u : UnitId) : BoardM Unit := do
  let pool ← getPool s
  if !pool.waiting.contains t then
    throw (.notWaiting t s)
  requireIdle u
  match (← getTask t).executor with
  | some other => throw (.taskBusy t other)
  | none =>
    let execution := (← get).execution
    modifyPool s (·.take t)
    modifyTask t (·.start u execution)

/-- A waiting task that no unit carries out, be it through another pool. -/
def isFree (b : Board) (t : TaskId) : Bool := b.tasks[t]?.any (·.executor.isNone)

/-- Gives a unit the first task that waits and is free. The answer is `none` if there is none. -/
def assignNext (s : PoolId) (u : UnitId) : BoardM (Option TaskId) := do
  let pool ← getPool s
  if pool.waiting.isEmpty then
    return none
  requireIdle u
  match pool.waiting.find? (← get).isFree with
  | none => return none
  | some t =>
    assign s t u
    return some t

/-- Puts a task that waits in a pool where its priority belongs. -/
def requeue (t : TaskId) (priority : Int32) (s : PoolId) : BoardM Unit := do
  let ahead := (← get).staysAhead priority
  modifyPool s fun pool ↦ if pool.waiting.contains t then (pool.dequeue t).enqueue ahead t else pool

/-- Hands an assigned task back to its pool with lowered priority, which is the answer. -/
def reclaim (s : PoolId) (t : TaskId) : BoardM Int32 := do
  let pool ← getPool s
  if !pool.assigned.contains t then
    throw (.notAssigned t s)
  modifyPool s (·.unassign t)
  let task ← getTask t
  let settings := (← get).scheduler
  let priority := backoff task.priority settings.backoffNumerator settings.backoffDenominator
  modifyTask t fun task ↦ { task.stop with priority }
  task.pools.toList.forM (requeue t priority)
  let ahead := (← get).staysAhead priority
  modifyPool s (·.enqueue ahead t)
  return priority

/-- Lets one task wait instead of another. If it may not, the other goes back to the place that it
had. -/
def replace (s : PoolId) (old new : TaskId) : BoardM Unit := do
  let place ← unscheduleAt s old
  try schedule s new
  catch e =>
    modifyPool s (·.insertAt place old)
    modifyTask old fun task ↦ { task with pools := task.pools.insert s }
    throw e

/-- Ends a task and takes it out of its pools. A second time changes nothing. -/
def terminate (t : TaskId) : BoardM Unit := do
  let task ← getTask t
  if task.terminated then return
  modifyTask t fun task ↦ { task.unlinked with terminated := true }
  task.pools.toList.forM fun s ↦ modifyPool s (·.drop t)

def removeEnded (b : Board) : List (TaskId × Task) × Board :=
  let ended := b.tasks.toList.filter (·.2.terminated)
  (ended, { b with tasks := ended.foldl (fun tasks (t, _) ↦ tasks.erase t) b.tasks })

/-- Gives tasks of a pool to those of the units that have none, until none is free. -/
def dispatch (s : PoolId) : List UnitId → BoardM (List (UnitId × TaskId))
  | [] => return []
  | u :: us => do
    if ((← get).taskOf? u).isSome then dispatch s us
    else
      match ← assignNext s u with
      | none => return []
      | some t => return (u, t) :: (← dispatch s us)

end Board

end Errand
