import Errand.Value

namespace Errand

inductive Command where
  | moveTo (target : Position)
  | work (target : Position)
  | follow (target : UnitId)
  | attack (target : UnitId)
  deriving DecidableEq, Repr

/-- All that a script may ask of a world, and tell it. A command is given to one unit, which carries it
out in its own time. -/
class World (ω : Type) where
  /-- A unit may stand in the cube. -/
  passable : ω → Position → Bool
  solid : ω → Position → Bool
  /-- The closest resource of a kind, seen from a cube. -/
  closest? : ω → Resource → Position → Option Position
  neighbors : ω → Position → List Position
  units : ω → List UnitId
  faction? : ω → UnitId → Option FactionId
  position? : ω → UnitId → Option Position
  terminated : ω → UnitId → Bool
  carries : ω → UnitId → Bool
  /-- The unit is still carrying out its last command. -/
  busy : ω → UnitId → Bool
  /-- The unit cannot go on with what it was told to do. -/
  helpless : ω → UnitId → Bool
  issue : ω → UnitId → Command → ω

end Errand
