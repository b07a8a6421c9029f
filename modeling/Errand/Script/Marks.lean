import Errand.Script.Site

namespace Errand

inductive Branch where
  | yes
  | no
  deriving DecidableEq, Repr

/-- What one statement remembers from one tick to the next. -/
structure Mark where
  pending : Bool := false
  /-- Of a sequence: the child to perform next. -/
  cursor : Nat := 0
  branch : Option Branch := none
  /-- Of a loop: its body has been entered and is to finish its turn. -/
  owesTurn : Bool := false
  /-- Of an action: the command has gone out. -/
  issued : Bool := false
  deriving DecidableEq, Repr, Inhabited

structure Marks where
  table : Array Mark
  deriving DecidableEq, Repr

namespace Marks

def blank (n : Nat) : Marks := ⟨Array.replicate n {}⟩

/-- The mark of a statement; blank for a number outside the table. -/
def get (m : Marks) (id : Nat) : Mark := m.table[id]?.getD {}

def update (m : Marks) (id : Nat) (f : Mark → Mark) : Marks := ⟨m.table.modify id f⟩

def set (m : Marks) (id : Nat) (mark : Mark) : Marks := m.update id fun _ ↦ mark

def clear (m : Marks) (ids : List Nat) : Marks := ids.foldl (fun m id ↦ m.set id {}) m

def reset (m : Marks) : Marks := blank m.table.size

def pending (m : Marks) (id : Nat) : Bool := (m.get id).pending

def startedCount (m : Marks) : Nat := m.table.countP (·.pending)

end Marks

namespace Script

mutual

/-- The way of started statements from a statement down, which has number `id`: at each one to its
first started child. -/
def trailFrom (m : Marks) : Script → Nat → List Nat
  | sequence _ body, id => if m.pending id then id :: trailAmong m body (id + 1) else []
  | branch _ _ yes no, id =>
    if m.pending id then
      id :: if m.pending (id + 1) then trailFrom m yes (id + 1) else trailFrom m no (id + 1 + yes.size)
    else []
  | loop _ _ body, id => if m.pending id then id :: trailFrom m body (id + 1) else []
  | leave _, id | assign _ _ _, id | print _ _, id | void _, id | action _ _ _, id =>
    if m.pending id then [id] else []

def trailAmong (m : Marks) : List Script → Nat → List Nat
  | [], _ => []
  | s :: ss, first =>
    if m.pending first then trailFrom m s first else trailAmong m ss (first + s.size)

end

def trail (s : Script) (m : Marks) : List Nat := s.trailFrom m 0

/-- The statement where the script goes on. -/
def current? (s : Script) (m : Marks) : Option Nat := (s.trail m).getLast?

mutual

/-- The way of started statements ends at an action whose command has gone out. -/
def awaits (m : Marks) : Script → Nat → Bool
  | sequence _ body, id => m.pending id && awaitsAmong m body (id + 1)
  | branch _ _ yes no, id =>
    m.pending id &&
      if m.pending (id + 1) then awaits m yes (id + 1) else awaits m no (id + 1 + yes.size)
  | loop _ _ body, id => m.pending id && awaits m body (id + 1)
  | action _ _ _, id => m.pending id && (m.get id).issued
  | leave _, _ | assign _ _ _, _ | print _ _, _ | void _, _ => false

def awaitsAmong (m : Marks) : List Script → Nat → Bool
  | [], _ => false
  | s :: ss, first => if m.pending first then awaits m s first else awaitsAmong m ss (first + s.size)

end

end Script

end Errand
