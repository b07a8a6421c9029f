import Errand.Definition.Scenario
import Errand.Format.Script

namespace Errand

namespace TaskSpec

def fields (t : TaskSpec) : List (String × Json) :=
  [("name", .str t.name), ("priority", .ofOption .ofInt32 t.priority),
    ("activities", t.activities.toJson), ("selected", .ofOption Position.toJson t.selected)]

def toJson (t : TaskSpec) : Json := .obj t.fields

def ofJson? (j : Json) : Option TaskSpec := do
  j.atMost 4
  return {
    name := ← (← j.need 0 "name").1.str?
    priority := ← j.orElse 1 "priority" none (Json.nullable? Json.int32?)
    activities := ← Statement.ofText? (← j.need 2 "activities").1
    selected := ← j.orElse 3 "selected" none (Json.nullable? Position.ofJson?) }

end TaskSpec

namespace Deposit

def toJson (r : Deposit) : Json := .obj [("kind", r.kind.toJson), ("position", r.position.toJson)]

def ofJson? (j : Json) : Option Deposit := do
  j.atMost 2
  return ⟨← Resource.ofJson? false (← j.need 0 "kind").1, ← Position.ofJson? (← j.need 1 "position").1⟩

end Deposit

namespace Recruit

def toJson (u : Recruit) : Json :=
  .obj [("id", u.id.toJson), ("faction", u.faction.toJson), ("position", u.position.toJson),
    ("carries", .ofOption Resource.toJson u.carries), ("health", .ofUInt32 u.health)]

def ofJson? (j : Json) : Option Recruit := do
  j.atMost 5
  return {
    id := ← UnitId.ofJson? (← j.need 0 "id").1
    faction := ← j.orElse 1 "faction" ⟨0⟩ FactionId.ofJson?
    position := ← Position.ofJson? (← j.need 2 "position").1
    carries := ← j.orElse 3 "carries" none (Json.nullable? (Resource.ofJson? false))
    health := ← j.orElse 4 "health" 3 Json.uint32? }

end Recruit

namespace Posting

def toJson (t : Posting) : Json :=
  .obj (t.task.fields ++ [("factions", .ofList FactionId.toJson t.factions)])

/-- The task is taken up as a whole before it is read; the factions are read at once. -/
def ofJson? (j : Json) : Option Posting := do
  j.named
  j.whollyBut "factions"
  return ⟨← TaskSpec.ofJson? j, ← j.orElse 0 "factions" [] (Json.list? FactionId.ofJson?)⟩

end Posting

namespace Scenario

def toJson (s : Scenario) : Json :=
  .obj [("solid", .ofList Position.toJson s.solid),
    ("resources", .ofList Deposit.toJson s.resources),
    ("units", .ofList Recruit.toJson s.units), ("tasks", .ofList Posting.toJson s.tasks)]

def ofJson? (j : Json) : Option Scenario := do
  j.atMost 4
  return {
    solid := ← j.orElse 0 "solid" [] (Json.list? Position.ofJson?)
    resources := ← j.orElse 1 "resources" [] (Json.list? Deposit.ofJson?)
    units := ← j.orElse 2 "units" [] (Json.list? Recruit.ofJson?)
    tasks := ← j.orElse 3 "tasks" [] (Json.list? Posting.ofJson?) }

end Scenario

end Errand
