import Errand.Board.Task

namespace Errand

/-- The number of elements at the front of a list that `ahead` holds of, if it holds of none behind
them. The search halves the range in which the number lies. -/
def partitionPoint (ahead : α → Bool) (l : List α) : Nat := between 0 l.length
where
  between (lo hi : Nat) : Nat :=
    if lo < hi then
      let mid := (lo + hi) / 2
      if l[mid]?.any ahead then between (mid + 1) hi else between lo mid
    else lo
  termination_by hi - lo

/-- The tasks of a faction that wait, highest priority first, and those that are assigned, in the order
of their assignment. -/
structure Pool where
  faction : FactionId
  waiting : List TaskId := []
  assigned : List TaskId := []
  deriving DecidableEq, Repr

namespace Pool

def listed (p : Pool) : List TaskId := p.waiting ++ p.assigned

def contains (p : Pool) (t : TaskId) : Bool := p.waiting.contains t || p.assigned.contains t

def insertAt (p : Pool) (place : Nat) (t : TaskId) : Pool :=
  { p with waiting := p.waiting.take place ++ t :: p.waiting.drop place }

/-- Lets a task wait behind every task that `ahead` puts before it. -/
def enqueue (p : Pool) (ahead : TaskId → Bool) (t : TaskId) : Pool :=
  p.insertAt (partitionPoint ahead p.waiting) t

def dequeue (p : Pool) (t : TaskId) : Pool := { p with waiting := p.waiting.erase t }

def unassign (p : Pool) (t : TaskId) : Pool := { p with assigned := p.assigned.erase t }

def take (p : Pool) (t : TaskId) : Pool :=
  { p with waiting := p.waiting.erase t, assigned := p.assigned ++ [t] }

def drop (p : Pool) (t : TaskId) : Pool := (p.dequeue t).unassign t

end Pool

end Errand
