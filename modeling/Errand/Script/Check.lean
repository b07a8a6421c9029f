import Errand.Definition.Statement

namespace Errand

inductive ScriptError where
  | breakOutsideLoop (loc : Location)
  | negativeCoordinate (p : Position) (loc : Location)
  | kindMismatch (expected found : Kind) (loc : Location)
  | emptyTaskName
  | negativeSelection (p : Position)
  deriving DecidableEq, Repr

def ScriptError.message : ScriptError → String
  | breakOutsideLoop l => "break outside of a loop at " ++ l.text
  | negativeCoordinate p l => "negative coordinate " ++ p.text ++ " at " ++ l.text
  | kindMismatch expected found l =>
    "type mismatch at " ++ l.text ++ ": expected " ++ expected.name ++ ", found " ++ found.name
  | emptyTaskName => "task name must not be empty"
  | negativeSelection p => "selected position " ++ p.text ++ " has a negative coordinate"

/-- Checks an expression in a slot: first its own kind, then its literal, then its operands. -/
def Expr.check (loc : Location) (e : Expr) (slot : Kind) : Except ScriptError Unit := do
  if !slot.accepts e.kind then
    throw (.kindMismatch slot e.kind loc)
  match e with
  | position p => if !p.nonnegative then throw (.negativeCoordinate p loc)
  | not a => a.check loc .boolean
  | and a b | or a b => do
    a.check loc .boolean
    b.check loc .boolean
  | isPassable p | isSolid p | nextTo p => p.check loc .position
  | isAlive u | isFriend u | isEnemy u | carriesItem u | positionOf u => u.check loc .unit
  | boolean _ | here | resource _ | selected | self | friend | enemy | any | var _ => pure ()

end Errand
