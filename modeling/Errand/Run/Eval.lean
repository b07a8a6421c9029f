import Errand.Run.Error
import Errand.World.Basic
import Errand.Chance
import Errand.Nearest

namespace Errand

/-- The variables of a running script. There is one scope. -/
abbrev Environment := Std.TreeMap String Value

/-- The unit that a script drives, and the position that its task was given. -/
structure Actor where
  unit : UnitId
  selected : Option Position := none
  deriving DecidableEq, Repr

structure View (ω : Type) where
  world : ω
  env : Environment
  actor : Actor

namespace View

variable {ω : Type} [World ω] (v : View ω)

def here : Except EvalError Position :=
  match World.position? v.world v.actor.unit with
  | some p => .ok p
  | none => .error (.deadReference (.unplaced v.actor.unit))

def live (u : UnitId) : Except EvalError UnitId :=
  if World.terminated v.world u then .error (.deadReference (.terminated u)) else .ok u

def relation (other : UnitId) : Except EvalError Relation :=
  match World.faction? v.world v.actor.unit with
  | none => .error (.deadReference (.factionless v.actor.unit))
  | some own =>
    match World.faction? v.world other with
    | none => .error (.deadReference (.factionless other))
    | some f => .ok (if f = own then .friend else .enemy)

def isRelated (r : Relation) (u : UnitId) : Bool :=
  match v.relation u with
  | .ok r' => r' = r
  | .error _ => false

def others : List UnitId :=
  (World.units v.world).filter fun u ↦ u ≠ v.actor.unit && !World.terminated v.world u

/-- How far a unit stands from a cube; 0 for a unit that stands nowhere. -/
def distanceFrom (p : Position) (u : UnitId) : Nat :=
  match World.position? v.world u with
  | some q => p.distanceSq q
  | none => 0

/-- The closest other unit with the given relation; of equally close ones, the lowest number. -/
def closestUnit (r : Relation) : Except EvalError UnitId := do
  let p ← v.here
  let candidates := v.others.filter fun u ↦
    v.isRelated r u && (World.position? v.world u).isSome
  match nearest? (v.distanceFrom p) candidates with
  | some u => return u
  | none => throw (.deadReference (.noLive r))

def closestResource (r : Resource) : Except EvalError Position := do
  let p ← v.here
  match World.closest? v.world r p with
  | some q => return q
  | none => throw (.missingTarget (.noResource r p))

def positionOf (u : UnitId) : Except EvalError Position :=
  match World.position? v.world u with
  | some p => .ok p
  | none => .error (.deadReference (.unplaced u))

def passableBeside (p : Position) : List Position :=
  (World.neighbors v.world p).filter (World.passable v.world)

end View

namespace Value

def toBoolean : Value → Except EvalError Bool
  | boolean b => .ok b
  | other => .error (.kindMismatch .boolean other.kind)

def toPosition : Value → Except EvalError Position
  | position p => .ok p
  | other => .error (.kindMismatch .position other.kind)

def toUnit : Value → Except EvalError UnitId
  | unit u => .ok u
  | other => .error (.kindMismatch .unit other.kind)

end Value

abbrev Draw (ρ : Type) := EStateM EvalError ρ

namespace Draw

variable {ρ : Type}

def ofExcept (x : Except EvalError α) : Draw ρ α :=
  match x with
  | .ok a => pure a
  | .error e => throw e

/-- One of the candidates, or the given error when there is none. -/
def choose [Chance ρ] (candidates : List α) (e : EvalError) : Draw ρ α := fun r ↦
  match Chance.choose candidates r with
  | (some a, r) => .ok a r
  | (none, r) => .error e r

end Draw

namespace Expr

variable {ω ρ : Type} [World ω] [Chance ρ]

def eval (v : View ω) : Expr → Draw ρ Value
  | boolean b => return .boolean b
  | not a => do
    let b ← Draw.ofExcept (← a.eval v).toBoolean
    return .boolean !b
  | and a b => do
    if ← Draw.ofExcept (← a.eval v).toBoolean then
      return .boolean (← Draw.ofExcept (← b.eval v).toBoolean)
    else return .boolean false
  | or a b => do
    if ← Draw.ofExcept (← a.eval v).toBoolean then return .boolean true
    else return .boolean (← Draw.ofExcept (← b.eval v).toBoolean)
  | isPassable a => do
    let p ← Draw.ofExcept (← a.eval v).toPosition
    return .boolean (World.passable v.world p)
  | isSolid a => do
    let p ← Draw.ofExcept (← a.eval v).toPosition
    return .boolean (World.solid v.world p)
  | isAlive a => do
    let u ← Draw.ofExcept (← a.eval v).toUnit
    return .boolean !(World.terminated v.world u)
  | isFriend a => do
    let u ← Draw.ofExcept ((← a.eval v).toUnit >>= v.live)
    return .boolean ((← Draw.ofExcept (v.relation u)) == .friend)
  | isEnemy a => do
    let u ← Draw.ofExcept ((← a.eval v).toUnit >>= v.live)
    return .boolean ((← Draw.ofExcept (v.relation u)) == .enemy)
  | carriesItem a => do
    let u ← Draw.ofExcept ((← a.eval v).toUnit >>= v.live)
    return .boolean (World.carries v.world u)
  | position p => return .position p
  | here => return .position (← Draw.ofExcept v.here)
  | resource r => return .position (← Draw.ofExcept (v.closestResource r))
  | nextTo a => do
    let p ← Draw.ofExcept (← a.eval v).toPosition
    return .position (← Draw.choose (v.passableBeside p) (.missingTarget (.noPassable p)))
  | positionOf a => do
    let u ← Draw.ofExcept ((← a.eval v).toUnit >>= v.live)
    return .position (← Draw.ofExcept (v.positionOf u))
  | selected =>
    match v.actor.selected with
    | some p => return .position p
    | none => throw (.missingTarget .noSelection)
  | self => return .unit (← Draw.ofExcept (v.live v.actor.unit))
  | friend => return .unit (← Draw.ofExcept (v.closestUnit .friend))
  | enemy => return .unit (← Draw.ofExcept (v.closestUnit .enemy))
  | any => return .unit (← Draw.choose v.others (.deadReference .noOther))
  | var name =>
    match v.env[name]? with
    | some x => return x
    | none => throw (.undefinedVariable name)

def evalBoolean (v : View ω) (e : Expr) : Draw ρ Bool := do
  Draw.ofExcept (← e.eval v).toBoolean

def evalPosition (v : View ω) (e : Expr) : Draw ρ Position := do
  Draw.ofExcept (← e.eval v).toPosition

def evalUnit (v : View ω) (e : Expr) : Draw ρ UnitId := do
  Draw.ofExcept (← e.eval v).toUnit

def evalLiveUnit (v : View ω) (e : Expr) : Draw ρ UnitId := do
  Draw.ofExcept ((← e.eval v).toUnit >>= v.live)

end Expr

end Errand
