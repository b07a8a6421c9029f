import Errand.World.Basic

namespace Errand

structure Canned.Row where
  id : UnitId
  faction : Option FactionId := none
  position : Option Position := none
  terminated : Bool := false
  carries : Bool := false
  busy : Bool := false
  helpless : Bool := false
  deriving Repr

/-- A world of prepared answers, which writes down the commands that it is given and does nothing about
them. -/
structure Canned where
  rows : List Canned.Row := []
  passable : List Position := []
  solid : List Position := []
  neighbors : List Position := []
  resources : List (Resource × Position) := []
  log : List (UnitId × Command) := []
  deriving Repr

namespace Canned

def row? (w : Canned) (u : UnitId) : Option Row := w.rows.find? (·.id = u)

/-- Replaces the first row with this number, or adds the row behind the others. -/
def putRow (row : Row) : List Row → List Row
  | [] => [row]
  | r :: rs => if r.id = row.id then row :: rs else r :: putRow row rs

instance : World Canned where
  passable w p := w.passable.contains p
  solid w p := w.solid.contains p
  closest? w r _ := (w.resources.find? (·.1 = r)).map (·.2)
  neighbors w _ := w.neighbors
  units w := w.rows.map (·.id)
  faction? w u := (w.row? u).bind (·.faction)
  position? w u := (w.row? u).bind (·.position)
  terminated w u := (w.row? u).any (·.terminated)
  carries w u := (w.row? u).any (·.carries)
  busy w u := (w.row? u).any (·.busy)
  helpless w u := (w.row? u).any (·.helpless)
  issue w u c := { w with log := w.log ++ [(u, c)] }

end Canned

end Errand
