import Errand.Run.Eval
import Errand.Script.Marks

namespace Errand

structure RunState where
  env : Environment := ∅
  timer : Nat := 0
  /-- A step was put off in this tick for want of time. -/
  depleted : Bool := false
  output : List String := []
  /-- How many such lines are kept. -/
  capacity : Nat

namespace RunState

/-- The time of a new tick; what was left of the last one is lost. -/
def grant (s : RunState) (budget : Nat) : RunState := { s with timer := budget, depleted := false }

def spend (s : RunState) : Bool × RunState :=
  match s.timer with
  | 0 => (false, { s with depleted := true })
  | t + 1 => (true, { s with timer := t })

/-- Adds a line; the oldest lines make room for it. -/
def write (s : RunState) (line : String) : RunState :=
  if s.capacity = 0 then s
  else { s with output := s.output.drop (s.output.length + 1 - s.capacity) ++ [line] }

def collect (s : RunState) : List String × RunState := (s.output, { s with output := [] })

end RunState

structure Machine (ω ρ : Type) where
  state : RunState
  marks : Marks
  world : ω
  source : ρ

/-- Steps of a script. What they did before a failure stays done. -/
abbrev Exec (ω ρ : Type) := EStateM EvalError (Machine ω ρ)

namespace Exec

variable {ω ρ : Type}

def mark (id : Nat) : Exec ω ρ Mark := return (← get).marks.get id

def updateMark (id : Nat) (f : Mark → Mark) : Exec ω ρ Unit :=
  modify fun m ↦ { m with marks := m.marks.update id f }

def clearMarks (ids : List Nat) : Exec ω ρ Unit :=
  modify fun m ↦ { m with marks := m.marks.clear ids }

def spend : Exec ω ρ Bool :=
  modifyGet fun m ↦
    let (paid, state) := m.state.spend
    (paid, { m with state })

def assign (name : String) (x : Value) : Exec ω ρ Unit :=
  modify fun m ↦ { m with state.env := m.state.env.insert name x }

def write (line : String) : Exec ω ρ Unit :=
  modify fun m ↦ { m with state := m.state.write line }

def issue [World ω] (u : UnitId) (c : Command) : Exec ω ρ Unit :=
  modify fun m ↦ { m with world := World.issue m.world u c }

def evaluate (actor : Actor) (x : View ω → Draw ρ α) : Exec ω ρ α := fun m ↦
  match x ⟨m.world, m.state.env, actor⟩ m.source with
  | .ok a source => .ok a { m with source }
  | .error e source => .error e { m with source }

end Exec

end Errand
