import Errand.Entity
import Errand.Position

namespace Errand

/-- What is known of a value before a script runs. `any` is known only when it runs, and fits
everywhere. -/
inductive Kind where
  | boolean
  | position
  | unit
  | any
  deriving DecidableEq, Repr, Inhabited

namespace Kind

def name : Kind → String
  | boolean => "boolean"
  | position => "position"
  | unit => "unit"
  | any => "any"

/-- A slot of one kind takes a value of another. -/
def accepts (slot found : Kind) : Bool := slot == any || found == any || slot == found

end Kind

inductive Value where
  | boolean (b : Bool)
  | position (p : Position)
  | unit (u : UnitId)
  deriving DecidableEq, Repr, Inhabited

namespace Value

def kind : Value → Kind
  | boolean _ => .boolean
  | position _ => .position
  | unit _ => .unit

def text : Value → String
  | boolean true => "true"
  | boolean false => "false"
  | position p => p.text
  | unit u => u.text

end Value

end Errand
