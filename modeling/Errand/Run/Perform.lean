import Errand.Run.Loop

namespace Errand.Script

open Exec

variable {ω ρ : Type} [World ω] [Chance ρ]

mutual

/-- Performs the statement that has number `id` and stands below `above`. -/
def performTimed (actor : Actor) : Script → Nat → List Ancestor → Timed ω ρ Outcome
  | sequence _ body, id, above =>
    .enter id (performRestTimed actor body id 0 (id + 1) (⟨id, false⟩ :: above))
  | branch _ condition yes no, id, above =>
    .enter id (.branchOn actor id condition (fun
        | .yes => (yes, id + 1)
        | .no => (no, id + 1 + yes.size))
      (performTimed actor yes (id + 1) (⟨id, false⟩ :: above))
      (performTimed actor no (id + 1 + yes.size) (⟨id, false⟩ :: above)))
  | loop _ condition body, id, above =>
    .enter id (.turns actor id condition (performTimed actor body (id + 1) (⟨id, true⟩ :: above)))
  | leave _, id, above => .enter id (.leaveLoop id above)
  | assign _ name e, id, _ => .enter id (.assignment actor name e)
  | print _ e, id, _ => .enter id (.printing actor e)
  | void _, id, _ => .enter id .completed
  | action _ a target, id, _ => .enter id (.act actor id a target)

/-- Performs the children of sequence `owner` from its cursor on. The first of those given is child
`index` and has number `first`. -/
def performRestTimed (actor : Actor) :
    List Script → (owner index first : Nat) → List Ancestor → Timed ω ρ Outcome
  | [], _, _, _, _ => .completed
  | s :: ss, owner, index, first, above =>
    .childThen owner index (performTimed actor s first above)
      (performRestTimed actor ss owner (index + 1) (first + s.size) above)

end

def perform (actor : Actor) (s : Script) (id : Nat) (above : List Ancestor) : Exec ω ρ Outcome :=
  (s.performTimed actor id above).run

def performRest (actor : Actor) (ss : List Script) (owner index first : Nat) (above : List Ancestor) :
    Exec ω ρ Outcome :=
  (performRestTimed actor ss owner index first above).run

/-- Performs the statement with number `id` of a script. -/
def performAt (s : Script) (actor : Actor) (id : Nat) : Exec ω ρ Outcome :=
  match s.site? id with
  | some site => site.script.perform actor id site.above
  | none => throw (.malformed (.unknownStatement id))

end Errand.Script
