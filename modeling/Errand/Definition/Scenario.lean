import Errand.Definition.Task

namespace Errand

structure Deposit where
  kind : Resource
  position : Position
  deriving DecidableEq, Repr, Inhabited

structure Recruit where
  id : UnitId
  faction : FactionId := ⟨0⟩
  position : Position
  carries : Option Resource := none
  health : UInt32 := 3
  deriving DecidableEq, Repr, Inhabited

/-- A task and the factions whose pools offer it; without any, every faction's does. -/
structure Posting where
  task : TaskSpec
  factions : List FactionId := []
  deriving Repr, Inhabited

structure Scenario where
  solid : List Position := []
  resources : List Deposit := []
  units : List Recruit := []
  tasks : List Posting := []
  deriving Repr, Inhabited

end Errand
