import Errand.Script.Basic

namespace Errand

inductive DeadReference where
  | terminated (u : UnitId)
  | unplaced (u : UnitId)
  | factionless (u : UnitId)
  | noLive (r : Relation)
  | noOther
  deriving DecidableEq, Repr

def DeadReference.message : DeadReference → String
  | terminated u => u.text ++ " is terminated"
  | unplaced u => u.text ++ " has no position"
  | factionless u => u.text ++ " has no faction"
  | noLive r => "no live " ++ r.name ++ " in the world"
  | noOther => "no other live unit in the world"

inductive MissingTarget where
  | noResource (r : Resource) (near : Position)
  | noPassable (p : Position)
  | noSelection
  deriving DecidableEq, Repr

def MissingTarget.message : MissingTarget → String
  | noResource r near => "no " ++ r.name ++ " near " ++ near.text
  | noPassable p => "no passable cube next to " ++ p.text
  | noSelection => "task has no selected position"

/-- Faults in the shape of a script, which no checked script has. -/
inductive Malformation where
  | unknownStatement (id : Nat)
  | loneBreak (id : Nat)
  | escapedBreak (loop : Nat)
  deriving DecidableEq, Repr

def Malformation.message : Malformation → String
  | unknownStatement id => "unknown statement " ++ nodeText id
  | loneBreak id => "break " ++ nodeText id ++ " has no enclosing loop"
  | escapedBreak loop => "break escaped to loop " ++ nodeText loop

inductive EvalError where
  | deadReference (cause : DeadReference)
  | missingTarget (cause : MissingTarget)
  | undefinedVariable (name : String)
  | kindMismatch (expected found : Kind)
  | malformed (cause : Malformation)
  deriving DecidableEq, Repr

def EvalError.message : EvalError → String
  | deadReference c => "Dead reference: " ++ c.message
  | missingTarget c => "Missing target: " ++ c.message
  | undefinedVariable name => "Undefined variable: " ++ name
  | kindMismatch expected found =>
    "Type mismatch: expected " ++ expected.name ++ ", found " ++ found.name
  | malformed c => "Malformed statement tree: " ++ c.message

end Errand
