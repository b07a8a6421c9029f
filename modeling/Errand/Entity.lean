import Std.Data.TreeMap

namespace Errand

structure UnitId where
  val : UInt64
  deriving DecidableEq, Repr, Inhabited

namespace UnitId

instance : Ord UnitId := ⟨compareOn val⟩

instance : Std.TransOrd UnitId := inferInstanceAs (Std.TransCmp (compareOn val))

instance : Std.LawfulEqOrd UnitId where
  eq_of_compare {a b} h := by
    have h : compare a.val b.val = .eq := h
    cases a
    cases b
    simp_all

def text (u : UnitId) : String := "unit#" ++ toString u.val.toNat

end UnitId

structure FactionId where
  val : UInt32
  deriving DecidableEq, Repr, Inhabited

namespace FactionId

instance : Ord FactionId := ⟨compareOn val⟩

instance : Std.TransOrd FactionId := inferInstanceAs (Std.TransCmp (compareOn val))

instance : Std.LawfulEqOrd FactionId where
  eq_of_compare {a b} h := by
    have h : compare a.val b.val = .eq := h
    cases a
    cases b
    simp_all

def text (f : FactionId) : String := "faction#" ++ toString f.val.toNat

end FactionId

inductive Resource where
  | log
  | boulder
  | workshop
  deriving DecidableEq, Repr, Inhabited

namespace Resource

def name : Resource → String
  | log => "log"
  | boulder => "boulder"
  | workshop => "workshop"

def ofName? : String → Option Resource
  | "log" => some log
  | "boulder" => some boulder
  | "workshop" => some workshop
  | _ => none

end Resource

/-- How another unit relates to the one that a script drives. -/
inductive Relation where
  | friend
  | enemy
  deriving DecidableEq, Repr

def Relation.name : Relation → String
  | friend => "friend"
  | enemy => "enemy"

end Errand
