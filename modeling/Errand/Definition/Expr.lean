import Errand.Value

namespace Errand

inductive Expr where
  | boolean (b : Bool)
  | not (operand : Expr)
  | and (left right : Expr)
  | or (left right : Expr)
  | isPassable (position : Expr)
  | isSolid (position : Expr)
  | isAlive (unit : Expr)
  | isFriend (unit : Expr)
  | isEnemy (unit : Expr)
  | carriesItem (unit : Expr)
  | position (p : Position)
  | here
  /-- The closest resource of a kind. -/
  | resource (r : Resource)
  /-- A passable cube beside a position, drawn at random. -/
  | nextTo (position : Expr)
  | positionOf (unit : Expr)
  | selected
  | self
  /-- The closest live unit of the driven unit's faction. -/
  | friend
  /-- The closest live unit of another faction. -/
  | enemy
  /-- A live unit other than the driven one, drawn at random. -/
  | any
  | var (name : String)
  deriving DecidableEq, Repr, Inhabited

namespace Expr

/-- The kind of value that the expression gives; a variable's is known only when it is read. -/
def kind : Expr → Kind
  | boolean _ | not _ | and _ _ | or _ _ | isPassable _ | isSolid _ | isAlive _ | isFriend _
  | isEnemy _ | carriesItem _ => .boolean
  | position _ | here | resource _ | nextTo _ | positionOf _ | selected => .position
  | self | friend | enemy | any => .unit
  | var _ => .any

/-- The direct operands, each with the kind that its slot takes. -/
def operands : Expr → List (Expr × Kind)
  | not a => [(a, .boolean)]
  | and a b | or a b => [(a, .boolean), (b, .boolean)]
  | isPassable p | isSolid p | nextTo p => [(p, .position)]
  | isAlive u | isFriend u | isEnemy u | carriesItem u | positionOf u => [(u, .unit)]
  | _ => []

end Expr

end Errand
