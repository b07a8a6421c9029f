import Errand.Settings
import Errand.World.Basic
import Errand.Nearest
import Std.Data.TreeMap

namespace Errand

inductive Activity where
  | idle
  | moving (target : Position)
  | working (target : Position) (remaining : Nat)
  | following (target : UnitId)
  | attacking (target : UnitId)
  deriving DecidableEq, Repr

structure Body where
  faction : FactionId
  position : Position
  carried : Option Resource := none
  health : Nat := 3
  activity : Activity := .idle
  /-- Its last step found no way forward. -/
  stuck : Bool := false
  deriving DecidableEq, Repr

def Body.alive (b : Body) : Bool := 0 < b.health

/-- The unit is at its goal or beside it. -/
def Body.reaches (b : Body) (goal : Position) : Bool := b.position = goal || b.position.adjacent goal

structure Grid where
  width : Int32
  depth : Int32
  height : Int32
  workTicks : Nat
  solid : Std.TreeSet Position := ∅
  resources : Std.TreeMap Position Resource := ∅
  units : Std.TreeMap UnitId Body := ∅
  ticks : Nat := 0

inductive GridError where
  | outside (p : Position)
  | unitExists (u : UnitId)
  deriving DecidableEq, Repr

def GridError.message : GridError → String
  | outside p => p.text ++ " is outside the world"
  | unitExists u => u.text ++ " already exists"

namespace Grid

/-- A grid with nothing in it. Work takes at least one tick. -/
def ofSettings (s : SandboxSettings) : Grid :=
  { width := s.width, depth := s.depth, height := s.height, workTicks := max s.workTicks.toNat 1 }

/-- The cube belongs to the grid. -/
def holds (g : Grid) (p : Position) : Bool :=
  0 ≤ p.x && p.x < g.width && 0 ≤ p.y && p.y < g.depth && 0 ≤ p.z && p.z < g.height

def isPassable (g : Grid) (p : Position) : Bool := g.holds p && !g.solid.contains p

def requireCube (g : Grid) (p : Position) : Except GridError Unit :=
  if g.holds p then .ok () else .error (.outside p)

def fill (g : Grid) (p : Position) : Except GridError Grid := do
  g.requireCube p
  return { g with solid := g.solid.insert p }

def deposit (g : Grid) (r : Resource) (p : Position) : Except GridError Grid := do
  g.requireCube p
  return { g with resources := g.resources.insert p r }

def station (g : Grid) (u : UnitId) (f : FactionId) (p : Position) : Except GridError Grid := do
  g.requireCube p
  if g.units.contains u then
    throw (.unitExists u)
  return { g with units := g.units.insert u { faction := f, position := p } }

def modifyUnit (g : Grid) (u : UnitId) (f : Body → Body) : Grid :=
  { g with units := g.units.modify u f }

def kill (g : Grid) (u : UnitId) : Grid := g.modifyUnit u ({ · with health := 0, activity := .idle })

def living (g : Grid) (f : FactionId) : List UnitId :=
  (g.units.toList.filter fun (_, b) ↦ b.faction = f && b.alive).map (·.1)

/-- The factions that have units, living or dead, in ascending order. -/
def factions (g : Grid) : List FactionId :=
  (g.units.values.foldl (fun fs b ↦ fs.insert b.faction) (∅ : Std.TreeSet FactionId)).toList

/-- Where a living unit stands. -/
def whereabouts? (g : Grid) (u : UnitId) : Option Position :=
  (g.units[u]?.filter (·.alive)).map (·.position)

def nearestResource? (g : Grid) (r : Resource) (near : Position) : Option Position :=
  nearest? (·.distanceSq near) ((g.resources.toList.filter (·.2 = r)).map (·.1))

/-- Begins an activity; the dead begin nothing. -/
def engage (g : Grid) (u : UnitId) (a : Activity) : Grid :=
  g.modifyUnit u fun b ↦ if b.alive then { b with activity := a, stuck := false } else b

/-- Ends an activity. -/
def rest (g : Grid) (u : UnitId) : Grid := g.modifyUnit u ({ · with activity := .idle, stuck := false })

/-- The passable cube around `here` that is closest to `goal`, if it is closer than `here`. -/
def nextCube? (g : Grid) (here goal : Position) : Option Position :=
  nearest? (·.distanceSq goal) <| here.around.filter fun p ↦
    g.isPassable p && p.distanceSq goal < here.distanceSq goal

/-- Moves a unit by one cube, or marks it as stuck. -/
def approach (g : Grid) (u : UnitId) (goal : Position) : Grid :=
  g.modifyUnit u fun b ↦
    match g.nextCube? b.position goal with
    | some p => { b with position := p, stuck := false }
    | none => { b with stuck := true }

/-- The end of a unit's work on a cube. It delivers what it carries to a workshop, or picks up a
resource with free hands, or digs a solid cube out, which leaves a boulder in its hands. -/
def endWork (g : Grid) (u : UnitId) (target : Position) : Grid :=
  match g.units[u]?, g.resources[target]? with
  | none, _ => g
  | some b, some .workshop =>
    if b.carried.isSome then g.modifyUnit u ({ · with carried := none }) else g
  | some b, some r =>
    if b.carried.isNone then
      { g with resources := g.resources.erase target }.modifyUnit u ({ · with carried := some r })
    else g
  | some _, none =>
    if g.solid.contains target then
      { g with solid := g.solid.erase target }.modifyUnit u ({ · with carried := some .boulder })
    else g

/-- One blow at a unit. Its death ends the attack. -/
def strike (g : Grid) (u target : UnitId) : Grid :=
  let g := g.modifyUnit target fun b ↦
    let b := { b with health := b.health - 1 }
    if b.alive then b else { b with activity := .idle }
  if g.units[target]?.any (·.alive) then g else g.rest u

/-- One tick of a unit's activity. -/
def act (g : Grid) (u : UnitId) : Grid :=
  match g.units[u]?.filter (·.alive) with
  | none => g
  | some b =>
    match b.activity with
    | .idle => g
    | .moving target =>
      let g := if b.position = target then g else g.approach u target
      if g.units[u]?.any (·.position = target) then g.rest u else g
    | .working target remaining =>
      if !b.reaches target then g.approach u target
      else if 1 < remaining then g.engage u (.working target (remaining - 1))
      else (g.endWork u target).rest u
    | .following target =>
      match g.whereabouts? target with
      | none => g.rest u
      | some goal => if b.reaches goal then g.rest u else g.approach u goal
    | .attacking target =>
      match g.whereabouts? target with
      | none => g.rest u
      | some goal => if b.reaches goal then g.strike u target else g.approach u goal

/-- One tick of every unit, in the order of their numbers. -/
def step (g : Grid) : Grid :=
  g.units.keys.foldl act { g with ticks := g.ticks + 1 }

/-- What a unit does about a command. -/
def activityOf (g : Grid) : Command → Activity
  | .moveTo p => .moving p
  | .work p => .working p g.workTicks
  | .follow u => .following u
  | .attack u => .attacking u

instance : World Grid where
  passable := isPassable
  solid g p := g.holds p && g.solid.contains p
  closest? := nearestResource?
  neighbors g p := p.around.filter g.holds
  units g := g.units.keys
  faction? g u := g.units[u]?.map (·.faction)
  position? g u := g.units[u]?.map (·.position)
  terminated g u := !g.units[u]?.any (·.alive)
  carries g u := g.units[u]?.any (·.carried.isSome)
  busy g u := g.units[u]?.any fun b ↦ b.alive && b.activity ≠ .idle
  helpless g u := g.units[u]?.all fun b ↦ !b.alive || b.stuck
  issue g u c := g.engage u (g.activityOf c)

end Grid

end Errand
