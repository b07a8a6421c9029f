import Errand.Numeral
import Std.Data.TreeSet

namespace Errand

structure Position where
  x : Int32
  y : Int32
  z : Int32
  deriving DecidableEq, Repr, Inhabited

namespace Position

instance : Ord Position :=
  ⟨compareLex (compareOn x) (compareLex (compareOn y) (compareOn z))⟩

instance : Std.TransOrd Position :=
  inferInstanceAs (Std.TransCmp (compareLex (compareOn x) (compareLex (compareOn y) (compareOn z))))

instance : Std.LawfulEqOrd Position where
  eq_of_compare {p q} h := by
    have h : compareLex (compareOn x) (compareLex (compareOn y) (compareOn z)) p q = .eq := h
    simp only [compareLex_eq_eq, compareOn] at h
    obtain ⟨hx, hy, hz⟩ := h
    cases p
    cases q
    simp_all

def text (p : Position) : String :=
  "(" ++ toString p.x.toInt ++ ", " ++ toString p.y.toInt ++ ", " ++ toString p.z.toInt ++ ")"

/-- The cube that lies `dx`, `dy` and `dz` away, unless a coordinate leaves its range. -/
def shift? (p : Position) (dx dy dz : Int) : Option Position := do
  let x ← int32? (p.x.toInt + dx)
  let y ← int32? (p.y.toInt + dy)
  let z ← int32? (p.z.toInt + dz)
  return ⟨x, y, z⟩

def gap (a b : Int32) : Nat := (a.toInt - b.toInt).natAbs

/-- Two distinct cubes are adjacent when no coordinate differs by more than one. -/
def adjacent (p q : Position) : Bool :=
  p ≠ q && gap p.x q.x ≤ 1 && gap p.y q.y ≤ 1 && gap p.z q.z ≤ 1

/-- The square of the straight-line distance. -/
def exactDistanceSq (p q : Position) : Nat :=
  gap p.x q.x * gap p.x q.x + gap p.y q.y * gap p.y q.y + gap p.z q.z * gap p.z q.z

/-- Distances are compared up to this bound, the greatest signed 64-bit integer. -/
def maxDistanceSq : Nat := 0x7fffffffffffffff

def distanceSq (p q : Position) : Nat := min (exactDistanceSq p q) maxDistanceSq

/-- One coordinate, moved by at most one towards another. -/
def approach (a b : Int32) : Int32 :=
  if a < b then a + 1 else if b < a then a - 1 else a

/-- One step towards `target`, moving at most one cube along each axis. -/
def towards (p target : Position) : Position :=
  ⟨approach p.x target.x, approach p.y target.y, approach p.z target.z⟩

/-- The cubes around `p`, in order: 26 of them, or fewer at the edge of the coordinate range. -/
def around (p : Position) : List Position :=
  [-1, 0, 1].flatMap fun dx ↦ [-1, 0, 1].flatMap fun dy ↦ [-1, 0, 1].filterMap fun dz ↦
    if dx = 0 ∧ dy = 0 ∧ dz = 0 then none else p.shift? dx dy dz

def nonnegative (p : Position) : Bool := 0 ≤ p.x && 0 ≤ p.y && 0 ≤ p.z

end Position

end Errand
