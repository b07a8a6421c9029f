import Errand.Run.Perform

namespace Errand

inductive Suspension where
  | timeDepleted
  | awaitingAction
  deriving DecidableEq, Repr

def Suspension.name : Suspension → String
  | timeDepleted => "time_depleted"
  | awaitingAction => "awaiting_action"

inductive Status where
  | finished
  | suspended (why : Suspension)
  | stopped
  deriving DecidableEq, Repr

inductive ProgramError where
  | interrupted (cause : EvalError)
  | stopped
  deriving DecidableEq, Repr

def ProgramError.message : ProgramError → String
  | interrupted e => "Program interrupted: " ++ e.message
  | stopped => "Program stopped"

structure Program where
  script : Script
  marks : Marks
  state : RunState
  stopped : Bool := false

namespace Program

/-- A program that has not begun, and keeps at most `capacity` printed lines. -/
def start (script : Script) (capacity : Nat) : Program :=
  { script, marks := .blank script.size, state := { capacity } }

def interrupt (p : Program) : Program := { p with stopped := true, marks := p.marks.reset }

/-- Lets the program begin anew. Its variables stay. -/
def reset (p : Program) : Program := { p with stopped := false, marks := p.marks.reset }

def current? (p : Program) : Option Nat := p.script.current? p.marks

structure Step (ω ρ : Type) where
  result : Except ProgramError Status
  program : Program
  world : ω
  source : ρ

variable {ω ρ : Type} [World ω] [Chance ρ]

/-- Runs the program for one tick. A failure interrupts it. -/
def advance (p : Program) (budget : Nat) (actor : Actor) (world : ω) (source : ρ) : Step ω ρ :=
  if p.stopped then ⟨.ok .stopped, p, world, source⟩
  else
    match p.script.perform actor 0 [] ⟨p.state.grant budget, p.marks, world, source⟩ with
    | .ok outcome m =>
      let p := { p with state := m.state, marks := m.marks }
      match outcome with
      | .completed => ⟨.ok .finished, { p with marks := p.marks.reset }, m.world, m.source⟩
      | .suspended =>
        let why := if m.state.depleted then Suspension.timeDepleted else .awaitingAction
        ⟨.ok (.suspended why), p, m.world, m.source⟩
      | .broke loop =>
        ⟨.error (.interrupted (.malformed (.escapedBreak loop))), p.interrupt, m.world, m.source⟩
    | .error e m =>
      let p := { p with state := m.state, marks := m.marks }
      ⟨.error (.interrupted e), p.interrupt, m.world, m.source⟩

def collect (p : Program) : List String × Program :=
  let (lines, state) := p.state.collect
  (lines, { p with state })

end Program

end Errand
