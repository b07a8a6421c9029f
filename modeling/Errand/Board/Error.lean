import Errand.Board.Task

namespace Errand

/-- A contradiction between pools and tasks. -/
inductive Fault where
  | missingTask (pool : PoolId) (task : TaskId)
  | noBackLink (pool : PoolId) (task : TaskId)
  | waitingAndAssigned (task : TaskId) (pool : PoolId)
  | outOfOrder (pool : PoolId)
  | noExecutor (task : TaskId) (pool : PoolId)
  | unknownLink (task : TaskId) (pool : PoolId)
  | occurrences (task : TaskId) (count : Nat) (pool : PoolId)
  | executorMismatch (task : TaskId)
  | assignedWithoutExecutor (task : TaskId)
  | assignedWithoutProgram (task : TaskId)
  deriving DecidableEq, Repr

def Fault.message (label : TaskId → String) : Fault → String
  | missingTask s t => s.text ++ " lists missing " ++ label t
  | noBackLink s t => s.text ++ " lists " ++ label t ++ " without back link"
  | waitingAndAssigned t s => label t ++ " is both available and assigned in " ++ s.text
  | outOfOrder s => s.text ++ " available pool out of order"
  | noExecutor t s => label t ++ " assigned in " ++ s.text ++ " has no executor"
  | unknownLink t s => label t ++ " links unknown " ++ s.text
  | occurrences t n s => label t ++ " appears " ++ toString n ++ " times in " ++ s.text
  | executorMismatch t => label t ++ " executor does not match assignments"
  | assignedWithoutExecutor t => label t ++ " assigned without executor"
  | assignedWithoutProgram t => label t ++ " assigned without program"

inductive BoardError where
  | unknownPool (pool : PoolId)
  | unknownTask (task : TaskId)
  | alreadyScheduled (task : TaskId) (pool : PoolId)
  | notWaiting (task : TaskId) (pool : PoolId)
  | notAssigned (task : TaskId) (pool : PoolId)
  | notScheduled (task : TaskId) (pool : PoolId)
  | taskAssigned (task : TaskId) (pool : PoolId)
  | unitBusy (unit : UnitId) (task : TaskId)
  | taskBusy (task : TaskId) (unit : UnitId)
  | taskTerminated (task : TaskId)
  | duplicateFaction (faction : FactionId)
  | integrity (fault : Fault)
  deriving DecidableEq, Repr

def BoardError.message (label : TaskId → String) : BoardError → String
  | unknownPool s => "Unknown scheduler: " ++ s.text
  | unknownTask t => "Unknown task: " ++ label t
  | alreadyScheduled t s => label t ++ " is already scheduled in " ++ s.text
  | notWaiting t s => label t ++ " is not available in " ++ s.text
  | notAssigned t s => label t ++ " is not assigned in " ++ s.text
  | notScheduled t s => label t ++ " is not scheduled in " ++ s.text
  | taskAssigned t s => label t ++ " is assigned in " ++ s.text ++ " and cannot be removed"
  | unitBusy u t => u.text ++ " is already executing " ++ label t
  | taskBusy t u => label t ++ " is already executed by " ++ u.text
  | taskTerminated t => label t ++ " has been terminated"
  | duplicateFaction f => f.text ++ " already has a scheduler"
  | integrity f => "Integrity violation: " ++ f.message label

end Errand
