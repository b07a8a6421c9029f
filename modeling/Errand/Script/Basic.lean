import Errand.Definition.Statement

namespace Errand

/-- Scripts in the form that runs: every `if` has both branches. Numbers are not stored. A statement
that has number `id` gives its first child the number `id + 1`, and each further child the number
behind its elder sibling's last descendant. -/
inductive Script where
  | sequence (loc : Location) (body : List Script)
  | branch (loc : Location) (condition : Expr) (yes no : Script)
  | loop (loc : Location) (condition : Expr) (body : Script)
  | leave (loc : Location)
  | assign (loc : Location) (name : String) (value : Expr)
  | print (loc : Location) (value : Expr)
  | void (loc : Location)
  | action (loc : Location) (action : Action) (target : Expr)
  deriving Repr, Inhabited

namespace Script

mutual

/-- The script of a definition. A missing branch does nothing, and stands where its `if` does. -/
def ofStatement : Statement → Script
  | .sequence l body => sequence l (ofStatements body)
  | .branch l c yes no => branch l c (ofStatement yes) (ofBranch l no)
  | .loop l c body => loop l c (ofStatement body)
  | .leave l => leave l
  | .assign l n e => assign l n e
  | .print l e => print l e
  | .void l => void l
  | .action l a e => action l a e

def ofStatements : List Statement → List Script
  | [] => []
  | s :: ss => ofStatement s :: ofStatements ss

def ofBranch (l : Location) : Option Statement → Script
  | none => void l
  | some s => ofStatement s

end

mutual

/-- The number of statements in a script. -/
def size : Script → Nat
  | sequence _ body => sizeAll body + 1
  | branch _ _ yes no => yes.size + no.size + 1
  | loop _ _ body => body.size + 1
  | leave _ | assign _ _ _ | print _ _ | void _ | action _ _ _ => 1

def sizeAll : List Script → Nat
  | [] => 0
  | s :: ss => s.size + sizeAll ss

end

def location : Script → Location
  | sequence l _ | branch l _ _ _ | loop l _ _ | leave l | assign l _ _ | print l _ | void l
  | action l _ _ => l

def isLoop : Script → Bool
  | loop _ _ _ => true
  | _ => false

def children : Script → List Script
  | sequence _ body => body
  | branch _ _ yes no => [yes, no]
  | loop _ _ body => [body]
  | _ => []

def numbered (first : Nat) : List Script → List Nat
  | [] => []
  | s :: ss => first :: numbered (first + s.size) ss

mutual

/-- The numbers of a statement and of everything below it, younger children before elder ones. -/
def descendants : Script → Nat → List Nat
  | sequence _ body, id => id :: descendantsAll body (id + 1)
  | branch _ _ yes no, id => id :: (no.descendants (id + 1 + yes.size) ++ yes.descendants (id + 1))
  | loop _ _ body, id => id :: body.descendants (id + 1)
  | leave _, id | assign _ _ _, id | print _ _, id | void _, id | action _ _ _, id => [id]

def descendantsAll : List Script → Nat → List Nat
  | [], _ => []
  | s :: ss, first => descendantsAll ss (first + s.size) ++ s.descendants first

end

end Script

def nodeText (id : Nat) : String := "#" ++ toString id

end Errand
