import Errand.Script.Basic
import Errand.Script.Check

namespace Errand

/-- What a statement does. Its children are named by their numbers. -/
inductive Node where
  | sequence (children : List Nat)
  | branch (condition : Expr) (yes no : Nat)
  | loop (condition : Expr) (body : Nat)
  | leave
  | assign (name : String) (value : Expr)
  | print (value : Expr)
  | void
  | action (action : Action) (target : Expr)
  deriving DecidableEq, Repr

namespace Node

def children : Node → List Nat
  | sequence children => children
  | branch _ yes no => [yes, no]
  | loop _ body => [body]
  | _ => []

def isLoop : Node → Bool
  | loop _ _ => true
  | _ => false

end Node

structure Slot where
  node : Node
  location : Location
  parent : Option Nat
  deriving DecidableEq, Repr

def Slot.check (s : Slot) (inLoop : Bool) : Except ScriptError Unit :=
  match s.node with
  | .leave => if inLoop then pure () else throw (.breakOutsideLoop s.location)
  | .branch c _ _ | .loop c _ => c.check s.location .boolean
  | .assign _ e | .print e => e.check s.location .any
  | .action a e => e.check s.location a.targetKind
  | .sequence _ | .void => pure ()

/-- The statements of a script, each in the slot that has its number. -/
structure Arena where
  slots : Array Slot
  root : Nat

namespace Arena

/-- Takes the next slot for a statement, and fills in what the statement does when its children have
their slots behind it. -/
def place (parent : Option Nat) (loc : Location) (node : Nat → StateM (Array Slot) Node) :
    StateM (Array Slot) Nat := do
  let id ← modifyGet fun slots ↦ (slots.size, slots.push ⟨.void, loc, parent⟩)
  let node ← node id
  modify fun slots ↦ slots.modify id ({ · with node })
  return id

mutual

def insert (parent : Option Nat) : Statement → StateM (Array Slot) Nat
  | .sequence l body => place parent l fun id ↦ do
    return .sequence (← insertAll id body)
  | .branch l c yes no => place parent l fun id ↦ do
    let yes ← insert (some id) yes
    return .branch c yes (← insertElse id l no)
  | .loop l c body => place parent l fun id ↦ do
    return .loop c (← insert (some id) body)
  | .leave l => place parent l fun _ ↦ return .leave
  | .assign l n e => place parent l fun _ ↦ return .assign n e
  | .print l e => place parent l fun _ ↦ return .print e
  | .void l => place parent l fun _ ↦ return .void
  | .action l a e => place parent l fun _ ↦ return .action a e

def insertAll (parent : Nat) : List Statement → StateM (Array Slot) (List Nat)
  | [] => return []
  | s :: ss => do
    let id ← insert (some parent) s
    return id :: (← insertAll parent ss)

/-- A missing branch gets a slot too. It does nothing, and stands where its `if` does. -/
def insertElse (parent : Nat) (l : Location) : Option Statement → StateM (Array Slot) Nat
  | none => place (some parent) l fun _ ↦ return .void
  | some s => insert (some parent) s

end

def ofStatement (d : Statement) : Arena :=
  let (root, slots) := (insert none d).run #[]
  { slots, root }

def size (a : Arena) : Nat := a.slots.size

def slot? (a : Arena) (id : Nat) : Option Slot := a.slots[id]?

def parent? (a : Arena) (id : Nat) : Option Nat := (a.slot? id).bind (·.parent)

def childIds (a : Arena) (id : Nat) : List Nat := (a.slot? id).elim [] (·.node.children)

/-- Goes from a number up to the first loop. There is no answer when the fuel runs out. -/
def loopFrom (a : Arena) : (fuel : Nat) → (cursor : Option Nat) → Option (Option Nat)
  | 0, _ => none
  | _ + 1, none => some none
  | fuel + 1, some id =>
    match a.slot? id with
    | none => some none
    | some slot => if slot.node.isLoop then some (some id) else a.loopFrom fuel slot.parent

/-- The numbers on a stack and all below them. Each one that is taken away leaves its children. -/
def gather (a : Arena) : (fuel : Nat) → (stack : List Nat) → Option (List Nat)
  | 0, _ => none
  | _ + 1, [] => some []
  | fuel + 1, next :: stack => do
    return next :: (← a.gather fuel ((a.childIds next).reverse ++ stack))

-- A way up visits each slot once at most, and so does a stack.
def loopAround? (a : Arena) (id : Nat) : Option Nat :=
  (a.loopFrom (a.size + 1) (a.parent? id)).join

def descendantIds (a : Arena) (id : Nat) : List Nat := (a.gather (a.size + 1) [id]).getD []

/-- Checks every statement; the first fault in the order of the slots counts. -/
def check (a : Arena) : Except ScriptError Unit :=
  (List.range a.size).forM fun id ↦ (a.slot? id).forM (·.check (a.loopAround? id).isSome)

end Arena

/-- The script of a definition, if it may run. -/
def Script.build (d : Statement) : Except ScriptError Script := do
  (Arena.ofStatement d).check
  return ofStatement d

end Errand
