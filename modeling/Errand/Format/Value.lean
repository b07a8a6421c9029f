import Errand.Json.Basic
import Errand.Value

namespace Errand

namespace Position

def toJson (p : Position) : Json :=
  .obj [("x", .ofInt32 p.x), ("y", .ofInt32 p.y), ("z", .ofInt32 p.z)]

def ofJson? (j : Json) : Option Position := do
  j.atMost 3
  return ⟨← (← j.need 0 "x").1.int32?, ← (← j.need 1 "y").1.int32?, ← (← j.need 2 "z").1.int32?⟩

end Position

namespace UnitId

def toJson (u : UnitId) : Json := .ofUInt64 u.val

def ofJson? (j : Json) : Option UnitId := j.uint64?.map UnitId.mk

end UnitId

namespace FactionId

def toJson (f : FactionId) : Json := .ofUInt32 f.val

def ofJson? (j : Json) : Option FactionId := j.uint32?.map FactionId.mk

end FactionId

namespace Resource

def toJson (r : Resource) : Json := .str r.name

def ofJson? (inScript : Bool) (j : Json) : Option Resource := (j.name? inScript).bind ofName?

end Resource

namespace Kind

def jsonName : Kind → String
  | boolean => "Boolean"
  | position => "Position"
  | unit => "Unit"
  | any => "Any"

def toJson (k : Kind) : Json := .str k.jsonName

def ofJson? (j : Json) : Option Kind := do
  match ← j.name? false with
  | "Boolean" => some boolean
  | "Position" => some position
  | "Unit" => some unit
  | "Any" => some any
  | _ => none

end Kind

namespace Value

def toJson : Value → Json
  | boolean b => .obj [("Boolean", .bool b)]
  | position p => .obj [("Position", p.toJson)]
  | unit u => .obj [("Unit", u.toJson)]

def ofJson? : Json → Option Value
  | .obj [("Boolean", j)] => j.bool?.map boolean
  | .obj [("Position", j)] => (Position.ofJson? j).map position
  | .obj [("Unit", j)] => (UnitId.ofJson? j).map unit
  | _ => none

end Value

end Errand
