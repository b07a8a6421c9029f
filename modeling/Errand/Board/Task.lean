import Errand.Definition.Task
import Errand.Run.Program
import Errand.Script.Arena
import Errand.Settings
import Errand.Text.Blank
import Std.Data.TreeSet

namespace Errand

structure TaskId where
  val : Nat
  deriving DecidableEq, Repr, Inhabited

namespace TaskId

instance : Ord TaskId := ⟨compareOn val⟩

instance : Std.TransOrd TaskId := inferInstanceAs (Std.TransCmp (compareOn val))

instance : Std.LawfulEqOrd TaskId where
  eq_of_compare {a b} h := by
    have h : compare a.val b.val = .eq := h
    cases a
    cases b
    simp_all

def text (t : TaskId) : String := "task:" ++ toString t.val

end TaskId

structure PoolId where
  val : Nat
  deriving DecidableEq, Repr, Inhabited

namespace PoolId

instance : Ord PoolId := ⟨compareOn val⟩

instance : Std.TransOrd PoolId := inferInstanceAs (Std.TransCmp (compareOn val))

instance : Std.LawfulEqOrd PoolId where
  eq_of_compare {a b} h := by
    have h : compare a.val b.val = .eq := h
    cases a
    cases b
    simp_all

def text (s : PoolId) : String := "scheduler#" ++ toString s.val

end PoolId

/-- A named script with a priority, for units to carry out. -/
structure Task where
  name : String
  priority : Int32
  script : Script
  selected : Option Position := none
  executor : Option UnitId := none
  pools : Std.TreeSet PoolId := ∅
  program : Option Program := none
  terminated : Bool := false

namespace Task

/-- A task that nobody carries out yet. Its name has to show something. -/
def make (name : String) (priority : Int32) (activities : Statement) : Except ScriptError Task := do
  if Text.isBlankText name then
    throw .emptyTaskName
  return { name, priority, script := ← Script.build activities }

def aimedAt (t : Task) (selected : Option Position) : Except ScriptError Task :=
  match selected with
  | none => .ok { t with selected := none }
  | some p => if p.nonnegative then .ok { t with selected := some p } else .error (.negativeSelection p)

def ofSpec (d : TaskSpec) (defaultPriority : Int32) : Except ScriptError Task := do
  let t ← make d.name (d.priority.getD defaultPriority) d.activities
  t.aimedAt d.selected

/-- Binds the task to a unit, with a program that has not begun. -/
def start (t : Task) (u : UnitId) (s : ExecutionSettings) : Task :=
  { t with executor := some u, program := some (.start t.script s.maxOutputLines.toNat) }

def stop (t : Task) : Task := { t with executor := none, program := none }

/-- The task without its links to a board. -/
def unlinked (t : Task) : Task := { t.stop with pools := ∅ }

/-- Higher priorities come first; of two equal ones either may. -/
def mayPrecede (a b : Task) : Bool := b.priority ≤ a.priority

end Task

end Errand
