import Errand.Run.State

namespace Errand

inductive Outcome where
  | completed
  /-- Out of time, or waiting for the unit. -/
  | suspended
  /-- A `break` is on its way out to the loop with this number. -/
  | broke (loop : Nat)
  deriving DecidableEq, Repr

namespace Exec

variable {ω ρ : Type} [World ω] [Chance ρ]

/-- Marks a statement as started while it is performed; a completed one is as if never started. -/
def enter (id : Nat) (body : Exec ω ρ Outcome) : Exec ω ρ Outcome := do
  updateMark id ({ · with pending := true })
  let outcome ← body
  if outcome = .completed then
    clearMarks [id]
  return outcome

/-- A step that costs one time unit. -/
def charged (step : Exec ω ρ Outcome) : Exec ω ρ Outcome := do
  if ← spend then step else return .suspended

/-- Gives up the chosen branch of an `if` when it waits for an action that the unit cannot go on
with. -/
def releaseBranch (actor : Actor) (id : Nat) (side : Branch → Script × Nat) : Exec ω ρ Unit := do
  match (← mark id).branch with
  | none => return
  | some b =>
    let (script, first) := side b
    let m ← get
    if script.awaits m.marks first && World.helpless m.world actor.unit then
      clearMarks (script.descendants first)
      updateMark id ({ · with branch := none })

/-- The branch of an `if`. It is chosen once and kept until it completes, since a branch that was
chosen again in every tick would leave its actions half done. No branch is chosen without time. -/
def chosenBranch (actor : Actor) (id : Nat) (condition : Expr) : Exec ω ρ (Option Branch) := do
  match (← mark id).branch with
  | some b => return some b
  | none =>
    if ← spend then
      let b := if ← evaluate actor (condition.evalBoolean ·) then Branch.yes else .no
      updateMark id ({ · with branch := some b })
      return some b
    else return none

def branchOn (actor : Actor) (id : Nat) (condition : Expr) (side : Branch → Script × Nat)
    (onYes onNo : Exec ω ρ Outcome) : Exec ω ρ Outcome := do
  releaseBranch actor id side
  match ← chosenBranch actor id condition with
  | none => return .suspended
  | some .yes => onYes
  | some .no => onNo

/-- The condition of a loop, unless a turn is still owed. The answer is `none` without time. -/
def nextTurn (actor : Actor) (id : Nat) (condition : Expr) : Exec ω ρ (Option Bool) := do
  if (← mark id).owesTurn then return some true
  else if ← spend then
    if ← evaluate actor (condition.evalBoolean ·) then
      updateMark id ({ · with owesTurn := true })
      return some true
    else return some false
  else return none

def leaveLoop (id : Nat) (above : List Ancestor) : Exec ω ρ Outcome := do
  match nearestLoop? above with
  | none => throw (.malformed (.loneBreak id))
  | some loop =>
    clearMarks (id :: withinLoop above)
    return .broke loop

def assignment (actor : Actor) (name : String) (e : Expr) : Exec ω ρ Outcome :=
  charged do
    assign name (← evaluate actor (e.eval ·))
    return .completed

def printing (actor : Actor) (e : Expr) : Exec ω ρ Outcome :=
  charged do
    write (← evaluate actor (e.eval ·)).text
    return .completed

/-- Child `index` of sequence `owner`, unless the cursor is past it, and then the rest. -/
def childThen (owner index : Nat) (child rest : Exec ω ρ Outcome) : Exec ω ρ Outcome := do
  if index < (← mark owner).cursor then rest
  else
    match ← child with
    | .completed =>
      updateMark owner ({ · with cursor := index + 1 })
      rest
    | other => return other

def commandOf (v : View ω) (a : Action) (target : Expr) : Draw ρ Command :=
  match a with
  | .moveTo => return .moveTo (← target.evalPosition v)
  | .work => return .work (← target.evalPosition v)
  | .follow => return .follow (← target.evalLiveUnit v)
  | .attack => return .attack (← target.evalLiveUnit v)

/-- Sends the command, unless it has gone out already. -/
def sendCommand (actor : Actor) (id : Nat) (a : Action) (target : Expr) : Exec ω ρ Bool := do
  if (← mark id).issued then return true
  else if ← spend then
    issue actor.unit (← evaluate actor (commandOf · a target))
    updateMark id ({ · with issued := true })
    return true
  else return false

/-- Sends the command, then waits, at no cost, for as long as the unit is busy. -/
def act (actor : Actor) (id : Nat) (a : Action) (target : Expr) : Exec ω ρ Outcome := do
  if ← sendCommand actor id a target then
    return if World.busy (← get).world actor.unit then .suspended else .completed
  else return .suspended

end Exec

end Errand
