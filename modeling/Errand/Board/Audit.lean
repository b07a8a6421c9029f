import Errand.Board.Basic

namespace Errand.Board

variable (b : Board)

def auditListed (s : PoolId) (t : TaskId) : Except Fault Unit :=
  match b.tasks[t]? with
  | none => throw (.missingTask s t)
  | some task => if task.pools.contains s then pure () else throw (.noBackLink s t)

def priorities (p : Pool) : List Int32 := p.waiting.filterMap fun t ↦ b.tasks[t]?.map (·.priority)

def neverRises : List Int32 → Bool
  | a :: c :: rest => c ≤ a && neverRises (c :: rest)
  | _ => true

def auditPool (s : PoolId) (p : Pool) : Except Fault Unit := do
  p.listed.forM (auditListed b s)
  match p.waiting.find? (p.assigned.contains ·) with
  | some t => throw (.waitingAndAssigned t s)
  | none => pure ()
  if !neverRises (b.priorities p) then
    throw (.outOfOrder s)
  p.assigned.forM fun t ↦
    if (b.tasks[t]?.bind (·.executor)).isNone then throw (.noExecutor t s) else pure ()

def auditLink (t : TaskId) (s : PoolId) : Except Fault Unit :=
  match b.pool? s with
  | none => throw (.unknownLink t s)
  | some p =>
    let n := p.listed.count t
    if n = 1 then pure () else throw (.occurrences t n s)

def holders (t : TaskId) : Nat := b.pools.countP (·.assigned.contains t)

def auditTask (t : TaskId) (task : Task) : Except Fault Unit := do
  task.pools.toList.forM (auditLink b t)
  let n := b.holders t
  if n > 1 ∨ (n == 0) ≠ task.executor.isNone then
    throw (.executorMismatch t)

/-- The first contradiction, pools before tasks. -/
def audit : Except Fault Unit := do
  b.pools.zipIdx.forM fun (p, i) ↦ auditPool b ⟨i⟩ p
  b.tasks.toList.forM fun (t, task) ↦ auditTask b t task

end Errand.Board
